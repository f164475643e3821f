import Hios.BlkDrv.Controller
import Hios.BlkDrv.QueueShape
import Hios.Lib.Run

/-! What the requests of the hard disk have read so far, through every interrupt,
retry and new request. -/
namespace Hios.BlkDrv
open Hios.Fs Hios.LinkedList Hios.Elevator Hios.Outcome Hios.Run
variable {β : Type} {disk : Geometry} {sectors : Nat → Nat → Sector} {nullErrors : Nat}
variable {s t : Drive β} {io io' : Io β Block} {l : List Slot} {c i : Slot} {b : β} {k : Nat}

def Disk.byteOf (disk : Disk) (sectors : Nat → Nat → Sector) (h : BufferHead β Block) (j : Nat) :
    BitVec 8 :=
  sectors (minorOf h.bDev / 5) (disk.startSect (minorOf h.bDev) + 2 * h.bBlocknr + j / 512)
    (j % 512)

structure ReadOf (disk : Disk) (sectors : Nat → Nat → Sector) (io : Io β Block) (i : Slot) (b : β)
    (k : Nat) : Prop where
  bh : (io.request i).bh = some b
  cmd : (io.request i).cmd = READ
  dev : (io.request i).dev = (io.bh b).bDev
  major : majorOf (io.bh b).bDev = MAJOR_NR
  locked : (io.bh b).bLock = true
  block : (io.bh b).bBlocknr + 1 < 2 ^ 30
  sector : (io.request i).sector = 2 * (io.bh b).bBlocknr + k
  nrSectors : (io.request i).nrSectors + k = 2
  buffer : (io.request i).buffer = 512 * k
  data : ∀ j < 512 * k, (io.bh b).bData j = disk.byteOf sectors (io.bh b) j

structure Queued (disk : Disk) (sectors : Nat → Nat → Sector) (io : Io β Block) (l : List Slot) :
  Prop where
  chain : Chain io.next (io.currentRequest MAJOR_NR) l
  nodup : l.Nodup
  reads : ∀ i ∈ l, ∃ b k, ReadOf disk sectors io i b k
  apart : ∀ i ∈ l, ∀ j ∈ l, (io.request i).bh = (io.request j).bh → i = j
  fresh : ∀ i ∈ l.tail, (io.request i).nrSectors = 2 ∧ (io.request i).errors = 0

def Within (disk : Disk) (r : Request β) : Prop :=
  minorOf r.dev < 5 * disk.nrHd ∧ r.sector + r.nrSectors ≤ disk.nrSects (minorOf r.dev)

def Rejects (disk : Disk) (r : Request β) : Prop :=
  5 * disk.nrHd ≤ minorOf r.dev ∨ disk.nrSects (minorOf r.dev) < r.sector + 2

instance (disk : Disk) (r : Request β) : Decidable (Rejects disk r) :=
  inferInstanceAs (Decidable (_ ∨ _))

def commandFor (disk : Disk) (r : Request β) : Command :=
  ⟨minorOf r.dev / 5, disk.startSect (minorOf r.dev) + r.sector, r.nrSectors⟩

/-- Between interrupts the controller works for the first request, from where it is. -/
structure Running (disk : Disk) (sectors : Nat → Nat → Sector) (s : Drive β) (l : List Slot) :
  Prop where
  queued : Queued disk sectors s.hd.io l
  idle : l = [] → s.command = none ∧ s.hd.doHd = false
  works : ∀ c ∈ l.head?, Within disk (s.hd.io.request c) ∧ 0 < (s.hd.io.request c).nrSectors ∧
    s.command = some (commandFor disk (s.hd.io.request c)) ∧ s.hd.doHd = true

structure SameBlock (h h' : BufferHead β Block) : Prop where
  dev : h'.bDev = h.bDev
  blocknr : h'.bBlocknr = h.bBlocknr
  lock : h'.bLock = h.bLock
  data : h'.bData = h.bData

theorem SameBlock.refl (h : BufferHead β Block) : SameBlock h h := ⟨rfl, rfl, rfl, rfl⟩

theorem ReadOf.congr (h : ReadOf disk.toDisk sectors io i b k)
    (hr : ∃ n, io'.request i = { io.request i with next := n })
    (hb : SameBlock (io.bh b) (io'.bh b)) :
    ReadOf disk.toDisk sectors io' i b k := by
  obtain ⟨n, hn⟩ := hr
  refine ⟨?_, ?_, ?_, ?_, ?_, ?_, ?_, ?_, ?_, fun j hj => ?_⟩
  · simpa [hn] using h.bh
  · simpa [hn] using h.cmd
  · simpa [hn, hb.dev] using h.dev
  · simpa [hb.dev] using h.major
  · simpa [hb.lock] using h.locked
  · simpa [hb.blocknr] using h.block
  · simpa [hn, hb.blocknr] using h.sector
  · simpa [hn] using h.nrSectors
  · simpa [hn] using h.buffer
  · simpa [Disk.byteOf, hb.dev, hb.blocknr, hb.data] using h.data j hj

theorem ReadOf.dev_nonneg (h : ReadOf disk.toDisk sectors io i b k) : 0 ≤ (io.request i).dev := by
  rw [h.dev]
  omega

theorem ReadOf.unique {b' : β} {k' : Nat} (h : ReadOf disk.toDisk sectors io i b k)
    (h' : ReadOf disk.toDisk sectors io i b' k') : b' = b ∧ k' = k := by
  have hb : some b' = some b := h'.bh.symm.trans h.bh
  have hk := h.nrSectors
  have hk' := h'.nrSectors
  exact ⟨Option.some.inj hb, by omega⟩

theorem Queued.head_eq (h : Queued disk.toDisk sectors io (c :: l)) :
    io.currentRequest MAJOR_NR = some c :=
  h.chain.1

theorem Queued.nil_eq (h : Queued disk.toDisk sectors io []) : io.currentRequest MAJOR_NR = none :=
  h.chain

theorem Queued.other_bh (h : Queued disk.toDisk sectors io (c :: l))
    (hc : (io.request c).bh = some b) (hi : i ∈ l) : (io.request i).bh ≠ some b := by
  intro he
  have hic : i = c := h.apart i (List.mem_cons_of_mem c hi) c List.mem_cons_self (he.trans hc.symm)
  exact (List.nodup_cons.mp h.nodup).1 (hic ▸ hi)

theorem Queued.tail_fresh (h : Queued disk.toDisk sectors io (c :: l)) :
    ∀ i ∈ l, (io.request i).nrSectors = 2 ∧ (io.request i).errors = 0 := h.fresh

def Drive.finish (s : Drive β) (uptodate : Bool) (c : Slot) (io : Io β Block) : Drive β :=
  { s with hd := { s.hd with io := io }, ended := s.ended ++ [s.hd.io.ended uptodate c] }

variable [DecidableEq β]

theorem Queued.endRequest_eq (h : Queued disk.toDisk sectors s.hd.io (c :: l)) (uptodate : Bool) :
    ∃ io, s.endRequest uptodate = .ok (s.finish uptodate c io) ∧ Queued disk.toDisk sectors io l ∧
    (∀ i ∈ l, io.request i = s.hd.io.request i) ∧
      ∀ u, ∀ i ∈ l, io.ended u i = s.hd.io.ended u i := by
  have hc : s.hd.io.currentRequest MAJOR_NR = some c := h.head_eq
  obtain ⟨b, k, hb⟩ := h.reads c List.mem_cons_self
  obtain ⟨hcl, hnd⟩ := List.nodup_cons.mp h.nodup
  obtain ⟨io, hio, hreq, hcur⟩ := BlkDrv.endRequest_eq uptodate hc
  have hbh : io.bh = Function.update s.hd.io.bh b
      { s.hd.io.bh b with bUptodate := uptodate, bLock := false } := by
    simp only [BlkDrv.endRequest, hc] at hio
    rw [← Option.some.inj hio]
    simp [hb.bh, Io.finishBh, unlockBuffer, Io.setBh, Io.setCurrent, Io.setRequest]
  have hothers : ∀ i ∈ l, io.request i = s.hd.io.request i := fun i hi => by
    have hic : i ≠ c := fun e => hcl (e ▸ hi)
    simp [hreq, hic]
  have hheads : ∀ i ∈ l, ∀ x, (s.hd.io.request i).bh = some x →
      io.bh x = s.hd.io.bh x := fun i hi x hx => by
    have hxb : x ≠ b := fun e => h.other_bh hb.bh hi (e ▸ hx)
    simp [hbh, hxb]
  refine ⟨io, ?_, ⟨?_, hnd, fun i hi => ?_, fun i hi j hj he => ?_, fun i hi => ?_⟩, hothers,
    fun u i hi => ?_⟩
  · simp [Drive.endRequest, hdEndRequest, Hd.current, hc, hb.bh, hb.locked, hio, Drive.finish]
  · rw [hcur, Function.update_self]
    refine h.chain.2.congr fun i hi => ?_
    simp [Io.next, hothers i hi]
  · obtain ⟨x, m, hx⟩ := h.reads i (List.mem_cons_of_mem c hi)
    refine ⟨x, m, hx.congr ⟨(s.hd.io.request i).next, hothers i hi⟩ ?_⟩
    rw [hheads i hi x hx.bh]
    exact .refl _
  · rw [hothers i hi, hothers j hj] at he
    exact h.apart i (List.mem_cons_of_mem c hi) j (List.mem_cons_of_mem c hj) he
  · have hil := List.mem_of_mem_tail hi
    rw [hothers i hil]
    exact h.tail_fresh i hil
  · obtain ⟨x, m, hx⟩ := h.reads i (List.mem_cons_of_mem c hi)
    simp [Io.ended, hothers i hi, hx.bh, hheads i hi x hx.bh]

omit [DecidableEq β] in
theorem current_of_registers {drive head : Nat} (hdrive : drive ≤ 1) (hhead : head ≤ 15) :
    (0xA0 ||| drive <<< 4 ||| head) % 256 / 16 % 2 = drive ∧
    (0xA0 ||| drive <<< 4 ||| head) % 256 % 16 = head := by
  have h : ∀ d < 2, ∀ k < 16, (0xA0 ||| d <<< 4 ||| k) % 256 / 16 % 2 = d ∧
      (0xA0 ||| d <<< 4 ||| k) % 256 % 16 = k := by
    decide
  exact h drive (by omega) head (by omega)

omit [DecidableEq β] in
theorem hdRegisters_command {disk : Disk} {drive nsect lba cyls : Nat} (hdrive : drive ≤ 1)
    (hn : 0 < nsect) (hn' : nsect < 256) (hhead : lba / disk.sect drive % disk.head drive ≤ 15)
    (hsec' : disk.sect drive < 2 ^ 8) (hcyls : cyls ≤ 2 ^ 16)
    (hlba : lba < cyls * disk.head drive * disk.sect drive) :
    (hdRegisters drive nsect (lba % disk.sect drive + 1) (lba / disk.sect drive % disk.head drive)
      (lba / disk.sect drive / disk.head drive)).command disk = ⟨drive, lba, nsect⟩ := by
  have hsect : 0 < disk.sect drive := Nat.pos_of_ne_zero fun e => by simp [e] at hlba
  have hsec := Nat.mod_lt lba hsect
  have htrack : lba / disk.sect drive < disk.head drive * cyls := by
    rw [Nat.div_lt_iff_lt_mul hsect, Nat.mul_comm (disk.head drive)]
    exact hlba
  have hcyl : lba / disk.sect drive / disk.head drive < cyls := Nat.div_lt_of_lt_mul htrack
  obtain ⟨hd, hh⟩ := current_of_registers hdrive hhead
  have htracks : lba / disk.sect drive / disk.head drive * disk.head drive +
      lba / disk.sect drive % disk.head drive = lba / disk.sect drive := Nat.div_add_mod' ..
  have hbytes : ∀ cyl < 2 ^ 16, cyl % 256 + 256 * (cyl / 256 % 256) = cyl := fun cyl h => by omega
  have hsecmod : (lba % disk.sect drive + 1) % 256 = lba % disk.sect drive + 1 :=
    Nat.mod_eq_of_lt (by omega)
  have hnmod : nsect % 256 = nsect := Nat.mod_eq_of_lt hn'
  simp only [Registers.command, hdRegisters, hd, hh, hbytes _ (hcyl.trans_le hcyls), htracks,
    hsecmod, hnmod,
    Nat.add_sub_cancel, Nat.div_add_mod', if_neg hn.ne']

/-- What `do_hd_request` does to the queue `l`: it refuses `l₁` and starts `l₂`. -/
structure Settled (disk : Disk) (sectors : Nat → Nat → Sector) (s : Drive β) (l : List Slot)
  (t : Drive β)
    (l₁ l₂ : List Slot) : Prop where
  queued : Queued disk sectors s.hd.io l
  split : l = l₁ ++ l₂
  running : Running disk sectors t l₂
  ended : t.ended = s.ended ++ l₁.map (s.hd.io.ended false)
  rejected : ∀ i ∈ l₁, Rejects disk (s.hd.io.request i)
  accepted : ∀ c ∈ l₂.head?, ¬ Rejects disk (s.hd.io.request c)
  kept : ∀ i ∈ l₂, t.hd.io.request i = s.hd.io.request i

omit [DecidableEq β] in
theorem Geometry.capacity_lt (disk : Geometry) (drive : Nat) :
    disk.cyl drive * disk.head drive * disk.sect drive < 2 ^ 32 := by
  have hc : disk.cyl drive ≤ 2 ^ 16 - 1 := Nat.le_pred_of_lt (disk.cyl_lt drive)
  have hh : disk.head drive ≤ 2 ^ 8 := (disk.head_lt drive).le
  have hs : disk.sect drive ≤ 2 ^ 8 := (disk.sect_lt drive).le
  have := Nat.mul_le_mul (Nat.mul_le_mul hc hh) hs
  omega

omit [DecidableEq β] in
theorem ReadOf.sector_lt (h : ReadOf disk.toDisk sectors io i b k) :
    (io.request i).sector + 2 < 2 ^ 32 := by
  have hs := h.sector
  have hn := h.nrSectors
  have hb := h.block
  omega

theorem Queued.accept (fuel : Nat) (h : Queued disk.toDisk sectors s.hd.io (c :: l))
    (hleft : 0 < (s.hd.io.request c).nrSectors) (hacc : ¬ Rejects disk.toDisk (s.hd.io.request c)) :
    Ends (· = Fault.badSector) (fun t => Settled disk.toDisk sectors s (c :: l) t [] (c :: l))
      (s.doHdRequest disk.toDisk (fuel + 1)) := by
  have hc : s.hd.current = some c := h.head_eq
  obtain ⟨b, k, hb⟩ := h.reads c List.mem_cons_self
  have hmajor : majorOf (s.hd.io.request c).dev = MAJOR_NR := by rw [hb.dev]; exact hb.major
  have hlocked : ((s.hd.io.request c).bh.any fun b => ¬ (s.hd.io.bh b).bLock) = false := by
    simp [hb.bh, hb.locked]
  have hmod : ((s.hd.io.request c).sector + 2) % 2 ^ 32 = (s.hd.io.request c).sector + 2 :=
    Nat.mod_eq_of_lt hb.sector_lt
  have hsectors := hb.nrSectors
  set r := s.hd.io.request c with hr
  set dev := minorOf r.dev with hdev
  obtain ⟨hnr, hfits⟩ : dev < 5 * disk.nrHd ∧ r.sector + 2 ≤ disk.nrSects dev := by
    simpa [Rejects, not_or] using hacc
  have hinside := disk.inside dev hnr
  have hcap := disk.capacity_lt (dev / 5)
  have hdrive : dev / 5 ≤ 1 := by have := disk.nrHd_le; omega
  have hlba : r.sector + disk.startSect dev < disk.cyl (dev / 5) * disk.head (dev / 5) * disk.sect
      (dev / 5) := by
    omega
  have hlbamod : (r.sector + disk.startSect dev) % 2 ^ 32 = r.sector + disk.startSect dev :=
    Nat.mod_eq_of_lt (hlba.trans hcap)
  have hsect : disk.sect (dev / 5) ≠ 0 := fun e => by simp [e] at hlba
  have hhead : disk.head (dev / 5) ≠ 0 := fun e => by simp [e] at hlba
  have hend : r.sector + r.nrSectors ≤ disk.nrSects dev := by omega
  have hwithin : Within disk.toDisk r := ⟨hnr, hend⟩
  have hread : r.cmd = READ := hb.cmd
  have hrej : ¬ (5 * disk.nrHd ≤ dev ∨ disk.nrSects dev < r.sector + 2) := hacc
  have hcmd : ¬ r.cmd = WRITE := by rw [hread]; decide
  simp only [Drive.doHdRequest, hc, ← hr, hmajor, ne_eq, not_true_eq_false, if_false, hlocked,
    Bool.false_eq_true,
    hmod, ← hdev, if_neg hrej, hlbamod, hsect, hhead, or_self, if_neg hcmd, if_pos hread]
  by_cases hbad : 15 < (r.sector + disk.startSect dev) / disk.sect (dev / 5) % disk.head (dev / 5)
  · simp [Drive.hdOut, BlkDrv.hdOut, hbad, Ends, bind, Except.bind]
  · have hout : ¬ (1 < dev / 5 ∨ 15 < (r.sector + disk.startSect dev) / disk.sect (dev / 5) %
      disk.head (dev / 5)) :=
      not_or.mpr ⟨by omega, hbad⟩
    have hreg := hdRegisters_command hdrive hleft (by omega) (Nat.le_of_not_lt hbad)
      (disk.sect_lt _)
      (disk.cyl_lt _).le hlba
    simp only [Drive.hdOut, BlkDrv.hdOut, if_neg hout, not_true_eq_false, if_false, hreg]
    refine ⟨h, rfl, ⟨h, by simp, fun d hd => ?_⟩, by simp, by simp, fun d hd => ?_, fun _ _ => rfl⟩
    · obtain rfl : c = d := by simpa using hd
      refine ⟨hwithin, hleft, ?_, rfl⟩
      simp [commandFor, ← hr, ← hdev, Nat.add_comm]
    · obtain rfl : c = d := by simpa using hd
      exact hacc

theorem Queued.refuse (fuel : Nat) (h : Queued disk.toDisk sectors s.hd.io (c :: l))
    (hrej : Rejects disk.toDisk (s.hd.io.request c)) :
    s.doHdRequest disk.toDisk (fuel + 1) = s.endRequest false >>=
      Drive.doHdRequest disk.toDisk fuel := by
  have hc : s.hd.current = some c := h.head_eq
  obtain ⟨b, k, hb⟩ := h.reads c List.mem_cons_self
  have hmajor : majorOf (s.hd.io.request c).dev = MAJOR_NR := by rw [hb.dev]; exact hb.major
  have hlocked : ((s.hd.io.request c).bh.any fun b => ¬ (s.hd.io.bh b).bLock) = false := by
    simp [hb.bh, hb.locked]
  have hmod : ((s.hd.io.request c).sector + 2) % 2 ^ 32 = (s.hd.io.request c).sector + 2 :=
    Nat.mod_eq_of_lt hb.sector_lt
  unfold Rejects at hrej
  simp only [Drive.doHdRequest, hc, hmajor, ne_eq, not_true_eq_false, if_false, hlocked,
    Bool.false_eq_true, hmod,
    if_pos hrej]

theorem Queued.doHdRequest (fuel : Nat) (h : Queued disk.toDisk sectors s.hd.io l)
    (hcmd : s.command = none) (hdo : s.hd.doHd = false)
    (hleft : ∀ c ∈ l.head?, 0 < (s.hd.io.request c).nrSectors) (hfuel : l.length < fuel) :
    Ends (· = Fault.badSector) (fun t => ∃ l₁ l₂, Settled disk.toDisk sectors s l t l₁ l₂)
      (s.doHdRequest disk.toDisk fuel) := by
  induction fuel generalizing s l with
  | zero => omega
  | succ fuel ih =>
    cases l with
    | nil =>
      have hc : s.hd.current = none := h.nil_eq
      simp only [Drive.doHdRequest, hc]
      exact ⟨[], [], h, rfl, ⟨h, fun _ => ⟨hcmd, hdo⟩, by simp⟩, by simp, by simp, by simp, by simp⟩
    | cons c l =>
      by_cases hrej : Rejects disk.toDisk (s.hd.io.request c)
      · obtain ⟨io, hend, hq, hkept, hentry⟩ := h.endRequest_eq false
        have hhead : ∀ d ∈ l.head?, 0 < (io.request d).nrSectors := fun d hd => by
          have hdl := List.mem_of_mem_head? hd
          simp [hkept d hdl, (h.tail_fresh d hdl).1]
        rw [h.refuse fuel hrej, hend]
        refine (ih (s := s.finish false c io) hq hcmd hdo hhead (by simpa using hfuel)).mono fun t
          ⟨l₁, l₂, ht⟩ => ?_
        have hmem : ∀ i, i ∈ l₁ ∨ i ∈ l₂ → i ∈ l := fun i hi => by simpa [ht.split] using hi
        have hmap : l₁.map (io.ended false) = l₁.map (s.hd.io.ended false) :=
          List.map_congr_left fun i hi => hentry false i (hmem i (.inl hi))
        refine ⟨c :: l₁, l₂, h,
          by simp [ht.split], ht.running, ?_, fun i hi => ?_, fun d hd => ?_, fun i hi => ?_⟩
        · simpa [Drive.finish, hmap] using ht.ended
        · cases hi with
          | head => exact hrej
          | tail _ hi => exact hkept i (hmem i (.inl hi)) ▸ ht.rejected i hi
        · exact hkept d (hmem d (.inr (List.mem_of_mem_head? hd))) ▸ ht.accepted d hd
        · exact (ht.kept i hi).trans (hkept i (hmem i (.inr hi)))
      · exact (h.accept fuel (hleft c rfl) hrej).mono fun t ht => ⟨[], c :: l, ht⟩

def Faithful (disk : Disk) (sectors : Nat → Nat → Sector) (e : Ended β) : Prop :=
  e.uptodate = true → ∃ h, e.head = some h ∧ ∀ j < 1024, h.bData j = disk.byteOf sectors h j

/-- From `s` to `u` the first request `c` has ended, with the record `e`; `l` is left. -/
structure Finished (s u : Drive β) (c : Slot) (l : List Slot) (e : Ended β) : Prop where
  ended : u.ended = s.ended ++ [e]
  bh : e.request.bh = (s.hd.io.request c).bh
  kept : ∀ i ∈ l, u.hd.io.request i = s.hd.io.request i

omit [DecidableEq β] in
theorem faithful_of_failed (io : Io β Block) (i : Slot) :
    Faithful disk.toDisk sectors (io.ended false i) :=
  fun h => absurd h (by simp [Io.ended])

omit [DecidableEq β] in
theorem Queued.setHead {r : Request β} (h : Queued disk.toDisk sectors io (c :: l))
    (hbh : r.bh = (io.request c).bh) (hnext : r.next = (io.request c).next)
    (hr : ∃ b k, ReadOf disk.toDisk sectors (io.setRequest c r) c b k) :
    Queued disk.toDisk sectors (io.setRequest c r) (c :: l) := by
  have hcl := (List.nodup_cons.mp h.nodup).1
  have hother : ∀ i ∈ l, (io.setRequest c r).request i = io.request i := fun i hi => by
    have hic : i ≠ c := fun e => hcl (e ▸ hi)
    simp [Io.setRequest, hic]
  have hbhs : ∀ i ∈ c :: l, ((io.setRequest c r).request i).bh = (io.request i).bh := fun i hi => by
    cases hi with
    | head => simp [Io.setRequest, hbh]
    | tail _ hi => rw [hother i hi]
  refine ⟨?_, h.nodup, fun i hi => ?_, fun i hi j hj he => ?_, fun i hi => ?_⟩
  · refine h.chain.congr fun i hi => ?_
    cases hi with
    | head => simp [Io.next, Io.setRequest, hnext]
    | tail _ hi => simp [Io.next, hother i hi]
  · cases hi with
    | head => exact hr
    | tail _ hi =>
      obtain ⟨b, k, hb⟩ := h.reads i (List.mem_cons_of_mem c hi)
      exact ⟨b, k, hb.congr ⟨(io.request i).next, hother i hi⟩ (.refl _)⟩
  · rw [hbhs i hi, hbhs j hj] at he
    exact h.apart i hi j hj he
  · rw [hother i hi]
    exact h.tail_fresh i hi

/-- Bytes that arrive in the buffer of the first request do not touch the others. -/
theorem Queued.setBh {h' : BufferHead β Block} (h : Queued disk.toDisk sectors io (c :: l))
    (hb : (io.request c).bh = some b) (hr : ∃ k, ReadOf disk.toDisk sectors (io.setBh b h') c b k) :
    Queued disk.toDisk sectors (io.setBh b h') (c :: l) := by
  refine ⟨h.chain, h.nodup, fun i hi => ?_, h.apart, h.fresh⟩
  cases hi with
  | head => exact ⟨b, hr⟩
  | tail _ hi =>
    obtain ⟨x, k, hx⟩ := h.reads i (List.mem_cons_of_mem c hi)
    have hxb : x ≠ b := fun e => h.other_bh hb hi (e ▸ hx.bh)
    refine ⟨x, k, hx.congr ⟨(io.request i).next, rfl⟩ ?_⟩
    have hsame : (io.setBh b h').bh x = io.bh x := by simp [Io.setBh, hxb]
    rw [hsame]
    exact .refl _

def receive (h : BufferHead β Block) (at' : Nat) (sector : Sector) : BufferHead β Block :=
  { h with bData := fun k => if at' ≤ k ∧ k < at' + 512 then sector (k - at') else h.bData k }

theorem portRead_eq (hb : (io.request c).bh = some b) (sector : Sector) :
    io.portRead c sector = io.setBh b (receive (io.bh b) (io.request c).buffer sector) := by
  simp [Io.portRead, hb, receive]

theorem ReadOf.receive (h : ReadOf disk.toDisk sectors io c b k) (sector : Sector) :
    ReadOf disk.toDisk sectors (io.portRead c sector) c b k := by
  rw [portRead_eq h.bh]
  refine ⟨h.bh, h.cmd, ?_, ?_, ?_, ?_, ?_, h.nrSectors, h.buffer, fun j hj => ?_⟩
  · simpa [Io.setBh, BlkDrv.receive] using h.dev
  · simpa [Io.setBh, BlkDrv.receive] using h.major
  · simpa [Io.setBh, BlkDrv.receive] using h.locked
  · simpa [Io.setBh, BlkDrv.receive] using h.block
  · simpa [Io.setBh, BlkDrv.receive] using h.sector
  · have hbuf := h.buffer
    have hout : ¬ ((io.request c).buffer ≤ j ∧ j < (io.request c).buffer + 512) := by omega
    simpa [Io.setBh, BlkDrv.receive, hout, Disk.byteOf] using h.data j hj

theorem ReadOf.advance (h : ReadOf disk.toDisk sectors io c b k)
    (hleft : 0 < (io.request c).nrSectors) :
    ReadOf disk.toDisk sectors
      ((io.portRead c (sectors (commandFor disk.toDisk (io.request c)).drive
        (commandFor disk.toDisk (io.request c)).next)).setRequest c (io.request c).advance) c b
          (k + 1) := by
  have hn := h.nrSectors
  have hs := h.sector
  have hlt := h.sector_lt
  have hbuf := h.buffer
  rw [portRead_eq h.bh]
  refine ⟨?_, ?_, ?_, ?_, ?_, ?_, ?_, ?_, ?_, fun j hj => ?_⟩
  · simpa [Io.setRequest, Request.advance] using h.bh
  · simpa [Io.setRequest, Request.advance] using h.cmd
  · simpa [Io.setRequest, Io.setBh, BlkDrv.receive, Request.advance] using h.dev
  · simpa [Io.setRequest, Io.setBh, BlkDrv.receive] using h.major
  · simpa [Io.setRequest, Io.setBh, BlkDrv.receive] using h.locked
  · simpa [Io.setRequest, Io.setBh, BlkDrv.receive] using h.block
  · simp [Io.setRequest, Io.setBh, BlkDrv.receive, Request.advance]
    omega
  · simp [Io.setRequest, Request.advance]
    omega
  · simp [Io.setRequest, Request.advance]
    omega
  · by_cases hin : (io.request c).buffer ≤ j ∧ j < (io.request c).buffer + 512
    · have hdiv : j / 512 = k := by omega
      have hmod : j % 512 = j - (io.request c).buffer := by omega
      simp [Io.setRequest, Io.setBh, BlkDrv.receive, hin, Disk.byteOf, commandFor, hdiv, hmod,
        h.dev, hs, Nat.add_assoc]
    · have hold := h.data j (by omega)
      simpa [Io.setRequest, Io.setBh, BlkDrv.receive, hin, Disk.byteOf] using hold

/-- After a good sector, before `read_intr` looks at what is left. -/
def Drive.received (sectors : Nat → Nat → Sector) (cmd : Command) (c : Slot) (s : Drive β) :
    Drive β :=
  { s with
    command := cmd.after true
    hd := { s.hd with
      doHd := false
      io := (s.hd.io.portRead c (sectors cmd.drive cmd.next)).setRequest c
        ((s.hd.io.portRead c (sectors cmd.drive cmd.next)).request c).advance } }

theorem interrupt_good {disk : Disk} (cmd : Command)
    (hc : s.hd.io.currentRequest MAJOR_NR = some c)
    (hcur : (s.hd.io.portRead c (sectors cmd.drive cmd.next)).request c = s.hd.io.request c)
    (hdo : s.hd.doHd = true) :
    s.interrupt disk sectors nullErrors true cmd =
      if (s.hd.io.request c).advance.nrSectors ≠ 0 then
        .ok { s.received sectors cmd c with
          hd := { (s.received sectors cmd c).hd with doHd := true } }
      else (s.received sectors cmd c).endRequest true >>= Drive.doHdRequest disk
        (NR_REQUEST + 1) := by
  unfold Drive.interrupt
  rw [if_pos hdo]
  unfold Drive.readIntr
  have hcurrent : ({ s with command := cmd.after true, hd := { s.hd with doHd := false } } : Drive
    β).hd.current =
      some c := hc
  dsimp only [if_true]
  rw [hcurrent]
  rw [← hcur]
  rfl

/-- A good sector either leaves the first request half done, or ends it and starts the next. -/
theorem Running.good (h : Running disk.toDisk sectors s (c :: l)) :
    Ends (· = Fault.badSector)
      (fun t => ((s.hd.io.request c).nrSectors = 2 ∧ Running disk.toDisk sectors t (c :: l) ∧
        t.ended = s.ended ∧
          t.hd.io.request c = (s.hd.io.request c).advance ∧
          ∀ i ∈ l, t.hd.io.request i = s.hd.io.request i) ∨
        ((s.hd.io.request c).nrSectors = 1 ∧ ∃ u e l₁ l₂, Finished s u c l e ∧ e.uptodate = true ∧
          Faithful disk.toDisk sectors e ∧ Settled disk.toDisk sectors u l t l₁ l₂))
      (s.interrupt disk.toDisk sectors nullErrors true
        (commandFor disk.toDisk (s.hd.io.request c))) := by
  obtain ⟨⟨hnr, hend⟩, hleft, hcmd, hdo⟩ := h.works c rfl
  have hq := h.queued
  have hc : s.hd.io.currentRequest MAJOR_NR = some c := hq.head_eq
  obtain ⟨b, k, hb⟩ := hq.reads c List.mem_cons_self
  have hcl := (List.nodup_cons.mp hq.nodup).1
  set sector := sectors (commandFor disk.toDisk (s.hd.io.request c)).drive
    (commandFor disk.toDisk (s.hd.io.request c)).next with hsector
  have hport := portRead_eq hb.bh sector
  have hreq : ((s.hd.io.portRead c sector).request c) = s.hd.io.request c := by
    simp [hport, Io.setBh]
  have hadv := hb.advance hleft
  rw [← hsector] at hadv
  have hn := hb.nrSectors
  have hnext : (s.hd.io.request c).advance.nrSectors = (s.hd.io.request c).nrSectors - 1 := by
    simp [Request.advance]
    omega
  have hq₁ : Queued disk.toDisk sectors (s.hd.io.portRead c sector) (c :: l) := by
    rw [hport]
    exact hq.setBh hb.bh ⟨k, hport ▸ hb.receive sector⟩
  have hq₂ : Queued disk.toDisk sectors
    ((s.hd.io.portRead c sector).setRequest c (s.hd.io.request c).advance)
      (c :: l) :=
    hq₁.setHead (by simp [hreq, Request.advance]) (by simp [hreq, Request.advance]) ⟨b, k + 1, hadv⟩
  have hself : (s.received sectors (commandFor disk.toDisk (s.hd.io.request c)) c).hd.io.request c =
      (s.hd.io.request c).advance := by simp [Drive.received, Io.setRequest, ← hsector, hreq]
  have hothers : ∀ i ∈ l,
    (s.received sectors (commandFor disk.toDisk (s.hd.io.request c)) c).hd.io.request i =
      s.hd.io.request i := fun i hi => by
    have hic : i ≠ c := fun e => hcl (e ▸ hi)
    simp [Drive.received, Io.setRequest, hic, ← hsector, hport, Io.setBh]
  have hq₃ : Queued disk.toDisk sectors
    (s.received sectors (commandFor disk.toDisk (s.hd.io.request c)) c).hd.io
      (c :: l) := by
    simpa only [Drive.received, ← hsector, hreq] using hq₂
  have hadv₃ : ReadOf disk.toDisk sectors
      (s.received sectors (commandFor disk.toDisk (s.hd.io.request c)) c).hd.io c b (k + 1) := by
    simpa only [Drive.received, ← hsector, hreq] using hadv
  have hsec : (s.hd.io.request c).advance.sector = (s.hd.io.request c).sector + 1 :=
    Nat.mod_eq_of_lt (by have := hb.sector_lt; omega)
  rw [interrupt_good _ hc hreq hdo]
  have hcase : (s.hd.io.request c).nrSectors = 2 ∨ (s.hd.io.request c).nrSectors = 1 := by omega
  cases hcase with
  | inl htwo =>
    have hne : (s.hd.io.request c).advance.nrSectors ≠ 0 := by omega
    rw [if_pos hne]
    refine .inl ⟨htwo, ⟨hq₃, by simp, fun d hd => ?_⟩, rfl, hself, hothers⟩
    obtain rfl : c = d := by simpa using hd
    dsimp only
    rw [hself]
    refine ⟨⟨hnr, ?_⟩, by omega, ?_, rfl⟩
    · have hlast : (s.hd.io.request c).advance.sector + (s.hd.io.request c).advance.nrSectors ≤
          disk.nrSects (minorOf (s.hd.io.request c).dev) := by
        rw [hsec]
        omega
      exact hlast
    · simp only [Drive.received, Command.after, commandFor, htwo, hnext, hsec]
      simp [Request.advance, Nat.add_assoc]
  | inr hone =>
    have hzero : ¬ (s.hd.io.request c).advance.nrSectors ≠ 0 := by omega
    rw [if_neg hzero]
    obtain ⟨io, hio, hq₄, hkept, hentry⟩ :=
      Queued.endRequest_eq (s := s.received sectors _ c) hq₃ true
    have hfull : k + 1 = 2 := by omega
    have hidle : (s.received sectors (commandFor disk.toDisk (s.hd.io.request c)) c).command =
        none := by
      simp [Drive.received, Command.after, commandFor, hone]
    have hhead : ∀ d ∈ l.head?, 0 < (io.request d).nrSectors := fun d hd => by
      have hdl := List.mem_of_mem_head? hd
      have hfresh := hq₃.tail_fresh d hdl
      simp [hkept d hdl, hfresh.1]
    rw [hio]
    have hlen := Nat.lt_succ_of_le (length_le_of_nodup hq₄.nodup)
    refine (Queued.doHdRequest (s := (s.received sectors _ c).finish true c io)
      (NR_REQUEST + 1) hq₄ hidle rfl
      hhead hlen).mono fun t hsettled => ?_
    obtain ⟨l₁, l₂, ht⟩ := hsettled
    refine .inr ⟨hone, _, _, l₁, l₂, ⟨rfl, ?_, ?_⟩, rfl, ?_, ht⟩
    · simp [Io.ended, hself, Request.advance]
    · exact fun i hi => (hkept i hi).trans (hothers i hi)
    · intro _
      have hhead : ((s.received sectors (commandFor disk.toDisk (s.hd.io.request c)) c).hd.io.ended
        true c).head =
          some ((s.received sectors (commandFor disk.toDisk (s.hd.io.request c)) c).hd.io.bh
            b) := by
        simp only [Io.ended, hadv₃.bh, Option.map_some]
      exact ⟨_, hhead, fun j hj => hadv₃.data j (by omega)⟩

def Io.countError (io : Io β Block) (c : Slot) : Io β Block :=
  io.setRequest c { io.request c with errors := (io.request c).errors + 1 }

omit [DecidableEq β] in
theorem Queued.countError (h : Queued disk.toDisk sectors io (c :: l)) :
    Queued disk.toDisk sectors (io.countError c) (c :: l) := by
  obtain ⟨b, k, hb⟩ := h.reads c List.mem_cons_self
  refine h.setHead rfl rfl ⟨b, k, ?_⟩
  refine ⟨?_, ?_, ?_, hb.major, hb.locked, hb.block, ?_, ?_, ?_, hb.data⟩
  · simpa [Io.setRequest] using hb.bh
  · simpa [Io.setRequest] using hb.cmd
  · simpa [Io.setRequest] using hb.dev
  · simpa [Io.setRequest] using hb.sector
  · simpa [Io.setRequest] using hb.nrSectors
  · simpa [Io.setRequest] using hb.buffer

omit [DecidableEq β] in
theorem countError_other (io : Io β Block) (hi : i ≠ c) :
    (io.countError c).request i = io.request i := by
  simp [Io.countError, Io.setRequest, hi]

/-- `bad_rw_inter` counts the error, and ends the request with the last one it allows. -/
theorem Queued.badRwInter (nullErrors : Nat) (h : Queued disk.toDisk sectors s.hd.io (c :: l)) :
    ∃ u, s.badRwInter nullErrors = .ok u ∧ u.command = s.command ∧ u.hd.doHd = s.hd.doHd ∧
      (((s.hd.io.request c).errors + 1 < MAX_ERRORS ∧ u.hd.io = s.hd.io.countError c ∧
        u.ended = s.ended) ∨
        (MAX_ERRORS ≤ (s.hd.io.request c).errors + 1 ∧ Queued disk.toDisk sectors u.hd.io l ∧
          ∃ e, Finished s u c l e ∧ e.uptodate = false)) := by
  have hc : s.hd.current = some c := h.head_eq
  have hq := h.countError
  have hcl := (List.nodup_cons.mp h.nodup).1
  by_cases hmax : MAX_ERRORS ≤ (s.hd.io.request c).errors + 1
  · obtain ⟨io, hio, hq', hkept, -⟩ :=
      Queued.endRequest_eq (s := s.setIo (s.hd.io.countError c)) hq false
    unfold Io.countError at hio
    simp only [Drive.badRwInter, hc, if_pos hmax, hio]
    refine ⟨_, rfl, rfl, rfl, .inr ⟨hmax, hq', _, ⟨rfl, ?_, fun i hi => ?_⟩, rfl⟩⟩
    · simp [Io.ended, Drive.setIo, Io.setRequest]
    · have hic : i ≠ c := fun e => hcl (e ▸ hi)
      exact (hkept i hi).trans (countError_other s.hd.io hic)
  · simp only [Drive.badRwInter, hc, if_neg hmax]
    exact ⟨_, rfl, rfl, rfl, .inl ⟨Nat.lt_of_not_le hmax, rfl, rfl⟩⟩

/-- After an error the first request is tried again from where it is, or given up. -/
theorem Running.bad (h : Running disk.toDisk sectors s (c :: l)) :
    Ends (· = Fault.badSector)
      (fun t => ((s.hd.io.request c).errors + 1 < MAX_ERRORS ∧
        ∃ u l₁ l₂, u.hd.io = s.hd.io.countError c ∧
          u.ended = s.ended ∧ Settled disk.toDisk sectors u (c :: l) t l₁ l₂) ∨
        (MAX_ERRORS ≤ (s.hd.io.request c).errors + 1 ∧ ∃ u e l₁ l₂, Finished s u c l e ∧
          e.uptodate = false ∧
          Settled disk.toDisk sectors u l t l₁ l₂))
      (s.interrupt disk.toDisk sectors nullErrors false
        (commandFor disk.toDisk (s.hd.io.request c))) := by
  obtain ⟨-, hleft, -, hdo⟩ := h.works c rfl
  obtain ⟨u, hu, hucmd, hudo, hcase⟩ := Queued.badRwInter nullErrors
    (s := { s with command := none, hd := { s.hd with doHd := false } }) h.queued
  have hint : s.interrupt disk.toDisk sectors nullErrors false
    (commandFor disk.toDisk (s.hd.io.request c)) =
      u.doHdRequest disk.toDisk (NR_REQUEST + 1) := by
    simp only [Drive.interrupt, hdo, if_true, Drive.readIntr, Command.after, Bool.false_eq_true,
      false_and, if_false,
      hu]
    rfl
  rw [hint]
  cases hcase with
  | inl hagain =>
    obtain ⟨herr, hio, hended⟩ := hagain
    have hq : Queued disk.toDisk sectors u.hd.io (c :: l) := hio ▸ h.queued.countError
    have hhead : ∀ d ∈ (c :: l).head?, 0 < (u.hd.io.request d).nrSectors := fun d hd => by
      obtain rfl : c = d := by simpa using hd
      simpa [hio, Io.countError, Io.setRequest] using hleft
    refine (hq.doHdRequest (NR_REQUEST + 1) hucmd hudo hhead (Nat.lt_succ_of_le
      (length_le_of_nodup hq.nodup))).mono fun t hsettled => ?_
    obtain ⟨l₁, l₂, ht⟩ := hsettled
    exact .inl ⟨herr, u, l₁, l₂, hio, hended, ht⟩
  | inr hlast =>
    obtain ⟨herr, hq, e, hfin, he⟩ := hlast
    have hhead : ∀ d ∈ l.head?, 0 < (u.hd.io.request d).nrSectors := fun d hd => by
      have hdl := List.mem_of_mem_head? hd
      have hfresh := h.queued.tail_fresh d hdl
      have hkept : u.hd.io.request d = s.hd.io.request d := hfin.kept d hdl
      simp [hkept, hfresh.1]
    refine (hq.doHdRequest (NR_REQUEST + 1) hucmd hudo hhead (Nat.lt_succ_of_le
      (length_le_of_nodup hq.nodup))).mono fun t hsettled => ?_
    obtain ⟨l₁, l₂, ht⟩ := hsettled
    exact .inr ⟨herr, u, e, l₁, l₂, ⟨hfin.ended, hfin.bh, hfin.kept⟩, he, ht⟩

/-- The table once `make_request` has locked `b` and filled `req`. -/
def Io.prepare (io : Io β Block) (req : Slot) (b : β) : Io β Block :=
  fillRequest req (io.bh b).bDev READ (io.bh b).bBlocknr (some b)
    (io.setBh b { io.bh b with bLock := true })

theorem makeRequest_eq {disk : Disk} (req : Slot) (b : β) (s : Drive β) :
    s.makeRequest disk req b = match addRequest MAJOR_NR req (s.hd.io.prepare req b) with
      | none => .error .looping
      | some io => if s.hd.current = none then (s.setIo io).doHdRequest disk (NR_REQUEST + 1)
        else .ok (s.setIo io) := by
  have hself : (s.hd.io.setBh b { s.hd.io.bh b with bLock := true }).bh b =
      { s.hd.io.bh b with bLock := true } := by
    simp [Io.setBh]
  simp only [Drive.makeRequest, hself]
  rfl

theorem addRequest_sameBlock {major : Nat} {req : Slot} (h : addRequest major req io = some io')
    (x : β) :
    SameBlock (io.bh x) (io'.bh x) := by
  have hclean : ∀ (j : Io β Block) (c : Option β), SameBlock (j.bh x) ((j.cleanBh c).bh x) := by
    intro j c
    cases c with
    | none => exact .refl _
    | some c =>
      by_cases hx : x = c
      · simpa [Io.cleanBh, Io.setBh, hx] using ⟨rfl, rfl, rfl, rfl⟩
      · simpa [Io.cleanBh, Io.setBh, hx] using .refl _
  simp only [addRequest] at h
  split at h
  · rw [← Option.some.inj h]
    exact hclean (io.setRequest req { io.request req with next := none }) _
  · obtain ⟨tmp, -, rfl⟩ := Option.map_eq_some_iff.mp h
    exact hclean (io.setRequest req { io.request req with next := none }) _

theorem readOf_prepare (req : Slot) (hmajor : majorOf (io.bh b).bDev = MAJOR_NR)
    (hblock : (io.bh b).bBlocknr + 1 < 2 ^ 30) :
    ReadOf disk.toDisk sectors (io.prepare req b) req b 0 := by
  refine ⟨?_, ?_, ?_, ?_, ?_, ?_, ?_, ?_, ?_, fun j hj => by omega⟩
  · simp [Io.prepare, fillRequest, Io.setRequest]
  · simp [Io.prepare, fillRequest, Io.setRequest]
  · simp [Io.prepare, fillRequest, Io.setRequest, Io.setBh]
  · simpa [Io.prepare, fillRequest, Io.setRequest, Io.setBh] using hmajor
  · simp [Io.prepare, fillRequest, Io.setRequest, Io.setBh]
  · simpa [Io.prepare, fillRequest, Io.setRequest, Io.setBh] using hblock
  · simp [Io.prepare, fillRequest, Io.setRequest, Io.setBh]
    omega
  · simp [Io.prepare, fillRequest, Io.setRequest]
  · simp [Io.prepare, fillRequest, Io.setRequest]

theorem Queued.enqueue {req : Slot} (h : Queued disk.toDisk sectors io l)
    (hreq : (io.request req).dev < 0) (hlock : (io.bh b).bLock = false)
    (hmajor : majorOf (io.bh b).bDev = MAJOR_NR) (hblock : (io.bh b).bBlocknr + 1 < 2 ^ 30) :
    ∃ io' l', addRequest MAJOR_NR req (io.prepare req b) = some io' ∧
    Queued disk.toDisk sectors io' l' ∧
      l'.Perm (req :: l) ∧ (l = [] ∨ l'.head? = l.head?) ∧
      (∀ i ∈ l, ∃ n, io'.request i = { io.request i with next := n }) ∧
      (io'.request req).bh = some b ∧ (io'.request req).nrSectors = 2 ∧
      (io'.request req).errors = 0 := by
  have hnl : req ∉ l := fun hi => by
    obtain ⟨x, k, hx⟩ := h.reads req hi
    have := hx.dev_nonneg
    omega
  have hothers : ∀ i, i ≠ req → (io.prepare req b).request i = io.request i := fun i hi => by
    simp [Io.prepare, fillRequest, Io.setRequest, Io.setBh, hi]
  have hne : ∀ i ∈ l, i ≠ req := fun i hi e => hnl (e ▸ hi)
  have hfree : ∀ i ∈ l, (io.request i).bh ≠ some b := fun i hi e => by
    obtain ⟨x, k, hx⟩ := h.reads i hi
    have hxb : x = b := Option.some.inj (hx.bh.symm.trans e)
    have hlx := hx.locked
    rw [hxb, hlock] at hlx
    cases hlx
  have hnew : ReadOf disk.toDisk sectors (io.prepare req b) req b 0 :=
    readOf_prepare req hmajor hblock
  have hchain : Chain (io.prepare req b).next ((io.prepare req b).currentRequest MAJOR_NR) l :=
    h.chain.congr fun i hi => by simp only [Io.next, hothers i (hne i hi)]
  obtain ⟨io', hio, hlinks, hchain', -⟩ := addRequest_eq_insert hchain h.nodup hnl
  have hperm := insert_perm (slotKey (io.prepare req b)) req l
  have hkept : ∀ i ∈ l, ∃ n, io'.request i = { io.request i with next := n } := fun i hi => by
    obtain ⟨n, hn⟩ := hlinks.fields i
    exact ⟨n, by rw [hn, hothers i (hne i hi)]⟩
  have hbhs : ∀ i ∈ l, (io'.request i).bh = (io.request i).bh := fun i hi => by
    obtain ⟨n, hn⟩ := hkept i hi
    rw [hn]
  have hnew' : ReadOf disk.toDisk sectors io' req b 0 :=
    hnew.congr (hlinks.fields req) (addRequest_sameBlock hio b)
  have hnewfields : (io'.request req).nrSectors = 2 ∧ (io'.request req).errors = 0 := by
    obtain ⟨n, hn⟩ := hlinks.fields req
    simp [hn, Io.prepare, fillRequest, Io.setRequest]
  refine ⟨io', _, hio, ⟨hchain', ?_, fun i hi => ?_, fun i hi j hj he => ?_, fun i hi => ?_⟩,
    hperm, ?_, hkept,
    hnew'.bh, hnewfields⟩
  · exact nodup_insertReq (slotKey (io.prepare req b)) hnl h.nodup
  · cases mem_insertReq.mp hi with
    | inl e => exact ⟨b, 0, e ▸ hnew'⟩
    | inr hi =>
      obtain ⟨x, k, hx⟩ := h.reads i hi
      have hxb : x ≠ b := fun e => hfree i hi (e ▸ hx.bh)
      have hsame := addRequest_sameBlock hio x
      have hold : (io.prepare req b).bh x = io.bh x := by
        simp [Io.prepare, fillRequest, Io.setRequest, Io.setBh, hxb]
      rw [hold] at hsame
      exact ⟨x, k, hx.congr (hkept i hi) hsame⟩
  · cases mem_insertReq.mp hi with
    | inl ei =>
      cases mem_insertReq.mp hj with
      | inl ej => rw [ei, ej]
      | inr hj =>
        rw [ei, hnew'.bh, hbhs j hj] at he
        exact absurd he.symm (hfree j hj)
    | inr hi =>
      cases mem_insertReq.mp hj with
      | inl ej =>
        rw [ej, hnew'.bh, hbhs i hi] at he
        exact absurd he (hfree i hi)
      | inr hj =>
        rw [hbhs i hi, hbhs j hj] at he
        exact h.apart i hi j hj he
  · cases mem_tail_insertReq hi with
    | inl e => exact e ▸ hnewfields
    | inr hi =>
      obtain ⟨n, hn⟩ := hkept i (List.mem_of_mem_tail hi)
      simpa [hn] using h.fresh i hi
  · cases l with
    | nil => exact .inl rfl
    | cons x l =>
      obtain ⟨m, hm⟩ := insert_cons (slotKey (io.prepare req b)) req x l
      exact .inr (by rw [hm]; rfl)

/-- A new READ starts the controller when the queue was empty, and waits otherwise. -/
theorem Running.read {req : Slot} (h : Running disk.toDisk sectors s l)
    (hen : driveEnabled s (.read req b)) :
    Ends (· = Fault.badSector)
      (fun t => ∃ u l', u.ended = s.ended ∧ l'.Perm (req :: l) ∧
        (∀ i ∈ l, ∃ n, u.hd.io.request i = { s.hd.io.request i with next := n }) ∧
        ((u.hd.io.request req).bh = some b ∧ (u.hd.io.request req).nrSectors = 2 ∧
          (u.hd.io.request req).errors = 0) ∧
        ((l = [] ∧ ∃ l₁ l₂, Settled disk.toDisk sectors u l' t l₁ l₂) ∨
          (l'.head? = l.head? ∧ t = u ∧ Running disk.toDisk sectors t l')))
      (s.makeRequest disk.toDisk req b) := by
  obtain ⟨hfind, hlock, -, hmajor, hblock⟩ := hen
  have hfree := List.find?_some hfind
  simp only [decide_eq_true_eq] at hfree
  obtain ⟨io', l', hio, hq, hperm, hhead, hkept, hnew⟩ :=
    h.queued.enqueue hfree.2 hlock hmajor hblock
  rw [makeRequest_eq, hio]
  cases l with
  | nil =>
    have hc : s.hd.current = none := h.queued.nil_eq
    obtain ⟨hcmd, hdo⟩ := h.idle rfl
    obtain rfl : l' = [req] := List.perm_singleton.mp hperm
    have hleft : ∀ d ∈ [req].head?, 0 < (io'.request d).nrSectors := fun d hd => by
      obtain rfl : req = d := by simpa using hd
      simp [hnew.2.1]
    dsimp only
    rw [if_pos hc]
    exact (Queued.doHdRequest (s := s.setIo io') (NR_REQUEST + 1) hq hcmd hdo hleft
      (by simp [NR_REQUEST])).mono
      fun t ⟨l₁, l₂, ht⟩ => ⟨s.setIo io', _, rfl, hperm, hkept, hnew, .inl ⟨rfl, l₁, l₂, ht⟩⟩
  | cons c l =>
    have hc : s.hd.current = some c := h.queued.head_eq
    have hhead : l'.head? = (c :: l).head? := hhead.resolve_left (List.cons_ne_nil c l)
    obtain ⟨hwithin, hpos, hcmd, hdo⟩ := h.works c rfl
    simp only [hc, reduceCtorEq, if_false]
    refine ⟨s.setIo io', l', rfl, hperm, hkept, hnew,
      .inr ⟨hhead, rfl, hq, fun hnil => ?_, fun d hd => ?_⟩⟩
    · rw [hnil] at hhead
      cases hhead
    · rw [hhead] at hd
      obtain rfl : c = d := by simpa using hd
      obtain ⟨n, hn⟩ := hkept c List.mem_cons_self
      simp only [Drive.setIo, hn]
      exact ⟨hwithin, hpos, hcmd, hdo⟩

theorem Running.touch {h' : BufferHead β Block} (h : Running disk.toDisk sectors s l)
    (hlock : (s.hd.io.bh b).bLock = false) :
    Running disk.toDisk sectors (s.setIo (s.hd.io.setBh b h')) l := by
  refine ⟨⟨h.queued.chain, h.queued.nodup, fun i hi => ?_, h.queued.apart, h.queued.fresh⟩,
    h.idle, h.works⟩
  obtain ⟨x, k, hx⟩ := h.queued.reads i hi
  have hxb : x ≠ b := fun e => by
    have hlx := hx.locked
    rw [e, hlock] at hlx
    cases hlx
  refine ⟨x, k, hx.congr ⟨(s.hd.io.request i).next, rfl⟩ ?_⟩
  have hsame : (s.hd.io.setBh b h').bh x = s.hd.io.bh x := by simp [Io.setBh, hxb]
  change SameBlock _ ((s.hd.io.setBh b h').bh x)
  rw [hsame]
  exact .refl _

omit [DecidableEq β] in
theorem Settled.faithful {u : Drive β} {l₁ l₂ : List Slot}
    (h : Settled disk.toDisk sectors u l t l₁ l₂) :
    ∃ es, t.ended = u.ended ++ es ∧ ∀ e ∈ es, Faithful disk.toDisk sectors e := by
  refine ⟨l₁.map (u.hd.io.ended false), h.ended, fun e he => ?_⟩
  obtain ⟨i, -, rfl⟩ := List.mem_map.mp he
  exact faithful_of_failed u.hd.io i

/-- A state whose controller works for its queue, and whose good requests were read whole. -/
def Sound (disk : Disk) (sectors : Nat → Nat → Sector) (s : Drive β) : Prop :=
  (∃ l, Running disk sectors s l) ∧ ∀ e ∈ s.ended, Faithful disk sectors e

omit [DecidableEq β] in
theorem Sound.settle {u : Drive β} {l₁ l₂ : List Slot} (h : Settled disk.toDisk sectors u l t l₁ l₂)
    (hu : ∀ e ∈ u.ended, Faithful disk.toDisk sectors e) : Sound disk.toDisk sectors t := by
  obtain ⟨es, hes, hgood⟩ := h.faithful
  refine ⟨⟨l₂, h.running⟩, fun e he => ?_⟩
  rw [hes] at he
  cases List.mem_append.mp he with
  | inl he => exact hu e he
  | inr he => exact hgood e he

omit [DecidableEq β] in
theorem Finished.faithful {u : Drive β} {e : Ended β} (h : Finished s u c l e)
    (hs : ∀ e ∈ s.ended, Faithful disk.toDisk sectors e) (he : Faithful disk.toDisk sectors e) :
    ∀ e ∈ u.ended, Faithful disk.toDisk sectors e := by
  intro x hx
  rw [h.ended] at hx
  cases List.mem_append.mp hx with
  | inl hx => exact hs x hx
  | inr hx => exact List.mem_singleton.mp hx ▸ he

theorem Sound.perform (nullErrors : Nat) {a : DriveAct β} (h : Sound disk.toDisk sectors s)
    (hen : driveEnabled s a) :
    Ends (· = Fault.badSector) (Sound disk.toDisk sectors)
      (drivePerform disk.toDisk sectors nullErrors s a) := by
  obtain ⟨⟨l, hl⟩, hs⟩ := h
  cases a with
  | read req b =>
    refine (hl.read hen).mono fun t ⟨u, l', hu, _, _, _, hcase⟩ => ?_
    cases hcase with
    | inl hstart =>
      obtain ⟨-, l₁, l₂, ht⟩ := hstart
      exact .settle ht (hu ▸ hs)
    | inr hwait =>
      obtain ⟨-, rfl, ht⟩ := hwait
      exact ⟨⟨l', ht⟩, hu ▸ hs⟩
  | touch b h' => exact ⟨⟨l, hl.touch hen.1⟩, hs⟩
  | interrupt good =>
    cases l with
    | nil =>
      have hen : s.command.isSome = true := hen
      rw [(hl.idle rfl).1] at hen
      cases hen
    | cons c l =>
      obtain ⟨-, -, hcmd, -⟩ := hl.works c rfl
      simp only [drivePerform, hcmd]
      cases good with
      | true =>
        refine hl.good.mono fun t ht => ?_
        cases ht with
        | inl hhalf => exact ⟨⟨c :: l, hhalf.2.1⟩, hhalf.2.2.1 ▸ hs⟩
        | inr hdone =>
          obtain ⟨-, u, e, l₁, l₂, hfin, -, he, ht⟩ := hdone
          exact .settle ht (hfin.faithful hs he)
      | false =>
        refine hl.bad.mono fun t ht => ?_
        cases ht with
        | inl hagain =>
          obtain ⟨-, u, l₁, l₂, -, hu, ht⟩ := hagain
          exact .settle ht (hu ▸ hs)
        | inr hlast =>
          obtain ⟨-, u, e, l₁, l₂, hfin, he, ht⟩ := hlast
          exact .settle ht (hfin.faithful hs fun h => by simp [he] at h)

omit [DecidableEq β] in
theorem sound_init (bh : β → BufferHead β Block) (request : Slot → Request β) :
    Sound disk.toDisk sectors (initDrive bh request) :=
  ⟨⟨[], ⟨rfl, List.nodup_nil, by simp, by simp, by simp⟩, fun _ => ⟨rfl, rfl⟩, by simp⟩,
    by simp [initDrive]⟩

theorem Sound.step {a : DriveAct β} (h : Sound disk.toDisk sectors s)
    (hst : driveStep disk.toDisk sectors nullErrors s a = some t) :
    Sound disk.toDisk sectors t := by
  unfold driveStep at hst
  split at hst
  · rename_i hen
    have hends := h.perform nullErrors hen
    cases hres : drivePerform disk.toDisk sectors nullErrors s a with
    | error e => simp [hres, Except.toOption] at hst
    | ok u =>
      rw [hres] at hends hst
      obtain rfl : u = t := by simpa [Except.toOption] using hst
      exact hends
  · cases hst

/-- However often a transfer was tried again, a request ends well only with the block's
two sectors in its buffer. -/
theorem uptodate_block_is_on_disk {disk : Geometry} {sectors : Nat → Nat → Sector}
    {nullErrors : Nat} {bh : β → BufferHead β Block} {request : Slot → Request β}
    {as : List (DriveAct β)} {t : Drive β}
    (h : run (driveStep disk.toDisk sectors nullErrors) (initDrive bh request) as = some t) :
    ∀ e ∈ t.ended, e.uptodate = true → ∃ h, e.head = some h ∧ ∀ j < 1024, h.bData j =
      sectors (minorOf h.bDev / 5) (disk.startSect (minorOf h.bDev) + 2 * h.bBlocknr + j / 512)
        (j % 512) :=
  (run_inv (P := Sound disk.toDisk sectors) (fun _ _ _ hs hst => hs.step hst)
    (sound_init bh request) h).2

def oneDrive : Geometry where
  nrHd := 1
  head _ := 16
  sect _ := 17
  cyl _ := 100
  startSect _ := 0
  nrSects _ := 27200
  nrHd_le := by decide
  head_lt _ := by decide
  sect_lt _ := by decide
  cyl_lt _ := by decide
  inside _ _ := by decide

theorem uptodate_block_after_retry :
    ∃ t, run (driveStep oneDrive.toDisk (fun _ lba j => BitVec.ofNat 8 (lba + j)) 0)
        (initDrive (fun _ : Unit => ⟨fun _ => 0, 7, 0x301, false, false, 1, false, none, none,
          none, none⟩)
          fun _ => ⟨0, 0, 0, 0, 0, 0, none, none⟩)
        [.read 31 (), .interrupt true, .interrupt false, .interrupt true] = some t ∧
      t.ended.map (·.uptodate) = [true] ∧ ∀ e ∈ t.ended, e.uptodate = true → ∃ h, e.head = some h ∧
        ∀ j < 1024, h.bData j = BitVec.ofNat 8 (0 + 2 * h.bBlocknr + j / 512 + j % 512) := by
  have hrun : (run (driveStep oneDrive.toDisk (fun _ lba j => BitVec.ofNat 8 (lba + j)) 0)
      (initDrive (fun _ : Unit => ⟨fun _ => 0, 7, 0x301, false, false, 1, false, none, none,
        none, none⟩)
        fun _ => ⟨0, 0, 0, 0, 0, 0, none, none⟩)
      [.read 31 (), .interrupt true, .interrupt false, .interrupt true]).any
        (fun t => t.ended.map (·.uptodate) = [true]) := by
    decide +kernel
  obtain ⟨t, ht, hended⟩ := (Option.any_eq_true _ _).mp hrun
  exact ⟨t, ht, of_decide_eq_true hended, uptodate_block_is_on_disk ht⟩

end Hios.BlkDrv
