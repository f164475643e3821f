import Hios.BlkDrv.Transfer

/-! The disk address of a request: the tables that `sys_setup` fills from the BIOS and the
partition tables, and what `do_hd_request` makes of them. -/
namespace Hios.BlkDrv
open Hios.Fs
variable {β : Type}

def littleEndian (bytes : Nat → BitVec 8) (k : Nat) : Nat → Nat
  | 0 => 0
  | n + 1 => (bytes k).toNat + 256 * littleEndian bytes (k + 1) n

structure HdInfo where
  head : Nat
  sect : Nat
  cyl : Nat

def hdInfo (bios : Nat → BitVec 8) (drive : Nat) : HdInfo :=
  ⟨littleEndian bios (16 * drive + 2) 1, littleEndian bios (16 * drive + 14) 1,
    littleEndian bios (16 * drive) 2⟩

def partition (data : Block) (i : Nat) : Nat × Nat :=
  (littleEndian data (0x1BE + 16 * i + 8) 4, littleEndian data (0x1BE + 16 * i + 12) 4)

def hdEntry (bios : Nat → BitVec 8) (first : Nat → Block) (dev : Nat) : Nat × Nat :=
  if dev % 5 = 0 then
    let info := hdInfo bios (dev / 5)
    (0, info.head * info.sect * info.cyl)
  else partition (first (dev / 5)) (dev % 5 - 1)

/-- `sys_setup` up to `rd_load`. `first` are the first blocks of the drives; `none` is the
panic over one that cannot be read or that is not marked. -/
def sysSetup (bios : Nat → BitVec 8) (first : Nat → Option Block) : Option Disk :=
  let nrHd := if (hdInfo bios 1).cyl ≠ 0 then 2 else 1
  if (List.range nrHd).all fun drive => (first drive).any fun data => data 510 = 0x55 ∧
    data 511 = 0xAA then
    let entry dev := if dev < 5 * nrHd then hdEntry bios
      (fun drive => (first drive).getD fun _ => 0) dev else (0, 0)
    some { nrHd := nrHd
           head := fun drive => (hdInfo bios drive).head
           sect := fun drive => (hdInfo bios drive).sect
           startSect := fun dev => (entry dev).1
           nrSects := fun dev => (entry dev).2 }
  else none

/-- The registers that `do_hd_request` has `hd_out` write for a READ request, `none` where
it issues no command: the request is refused, a division fails or `hd_out` panics. -/
def issued (disk : Disk) (r : Request β) : Option Registers :=
  let dev := minorOf r.dev
  let block := r.sector
  if 5 * disk.nrHd ≤ dev ∨ disk.nrSects dev < (block + 2) % 2 ^ 32 then none
  else
    let block := (block + disk.startSect dev) % 2 ^ 32
    let drive := dev / 5
    if disk.sect drive = 0 ∨ disk.head drive = 0 then none
    else
      let sec := block % disk.sect drive + 1
      let track := block / disk.sect drive
      let head := track % disk.head drive
      let cyl := track / disk.head drive
      if 1 < drive ∨ 15 < head then none else some (hdRegisters drive r.nrSectors sec head cyl)

/-- The command names the sectors of the request by their absolute numbers, on the drive of the
partition, and all of them lie in the partition. -/
structure AddressRight (disk : Disk) (r : Request β) (cmd : Command) : Prop where
  named : cmd = ⟨minorOf r.dev / 5, disk.startSect (minorOf r.dev) + r.sector, r.nrSectors⟩
  start : disk.startSect (minorOf r.dev) ≤ cmd.next
  inside : cmd.next + cmd.left ≤ disk.startSect (minorOf r.dev) + disk.nrSects (minorOf r.dev)

variable {disk : Disk} {r : Request β} {regs : Registers} {lba drive nsect : Nat}
variable {bios : Nat → BitVec 8} {first : Nat → Option Block}

theorem issued_some (h : issued disk r = some regs) :
    minorOf r.dev < 5 * disk.nrHd ∧ (r.sector + 2) % 2 ^ 32 ≤ disk.nrSects (minorOf r.dev) ∧
      minorOf r.dev / 5 ≤ 1 ∧ disk.sect (minorOf r.dev / 5) ≠ 0 ∧
      disk.head (minorOf r.dev / 5) ≠ 0 ∧
      let lba := (r.sector + disk.startSect (minorOf r.dev)) % 2 ^ 32
      let track := lba / disk.sect (minorOf r.dev / 5)
      track % disk.head (minorOf r.dev / 5) ≤ 15 ∧
      regs = hdRegisters (minorOf r.dev / 5) r.nrSectors (lba % disk.sect (minorOf r.dev / 5) + 1)
        (track % disk.head (minorOf r.dev / 5)) (track / disk.head (minorOf r.dev / 5)) := by
  simp only [issued] at h
  split at h
  · cases h
  rename_i hguard
  split at h
  · cases h
  rename_i hgeom
  split at h
  · cases h
  rename_i hout
  simp only [not_or, Nat.not_le, Nat.not_lt] at hguard hgeom hout
  exact ⟨hguard.1, hguard.2, hout.1, hgeom.1, hgeom.2, hout.2, (Option.some.inj h).symm⟩

/-- The sector registers cannot name a sector beyond the last cylinder of 16 bits. -/
theorem command_next_lt (nsect cyl : Nat) (hdrive : drive ≤ 1)
    (hhead : lba / disk.sect drive % disk.head drive ≤ 15) (hsect : 0 < disk.sect drive)
    (hheads : 0 < disk.head drive) (hsect' : disk.sect drive < 256) :
    ((hdRegisters drive nsect (lba % disk.sect drive + 1) (lba / disk.sect drive % disk.head drive)
      cyl).command disk).next <
      65536 * disk.head drive * disk.sect drive := by
  obtain ⟨hd, hh⟩ := current_of_registers hdrive hhead
  have hsec := Nat.mod_lt lba hsect
  have hlow := Nat.mod_lt (lba / disk.sect drive) hheads
  have hsecmod : (lba % disk.sect drive + 1) % 256 = lba % disk.sect drive + 1 :=
    Nat.mod_eq_of_lt (by omega)
  have hcyl : cyl % 256 + 256 * (cyl / 256 % 256) + 1 ≤ 65536 := by omega
  have htrack : (cyl % 256 + 256 * (cyl / 256 % 256)) * disk.head drive + lba / disk.sect drive %
    disk.head drive + 1 ≤
      65536 * disk.head drive := by
    have := Nat.mul_le_mul_right (disk.head drive) hcyl
    rw [Nat.succ_mul] at this
    omega
  have hnext := Nat.mul_le_mul_right (disk.sect drive) htrack
  rw [Nat.succ_mul] at hnext
  simp only [Registers.command, hdRegisters, hd, hh, hsecmod, Nat.add_sub_cancel]
  omega

theorem littleEndian_lt (bytes : Nat → BitVec 8) : ∀ n k, littleEndian bytes k n < 256 ^ n
  | 0, _ => by simp [littleEndian]
  | n + 1, k => by
    have hbyte := (bytes k).isLt
    have hrest := littleEndian_lt bytes n (k + 1)
    rw [littleEndian, Nat.pow_succ]
    omega

theorem sysSetup_disk (h : sysSetup bios first = some disk) :
    disk.nrHd ≤ 2 ∧ (∀ drive, disk.head drive = (hdInfo bios drive).head) ∧
      ∀ drive, disk.sect drive = (hdInfo bios drive).sect := by
  simp only [sysSetup, Option.ite_none_right_eq_some, Option.some.injEq] at h
  obtain ⟨-, rfl⟩ := h
  refine ⟨?_, fun _ => rfl, fun _ => rfl⟩
  show (if (hdInfo bios 1).cyl ≠ 0 then 2 else 1) ≤ 2
  split <;> omega

/-- What `do_hd_request` issues is right exactly when the absolute sector is one that the
registers can name. -/
theorem issued_right_iff (hsetup : sysSetup bios first = some disk)
    (hgeom : ∀ drive < disk.nrHd, 1 ≤ disk.head drive ∧ disk.head drive ≤ 16 ∧ 1 ≤ disk.sect drive)
    (hsector : r.sector < 2 ^ 32) (hnr : r.nrSectors = 1 ∨ r.nrSectors = 2)
    (h : issued disk r = some regs) :
    AddressRight disk r (regs.command disk) ↔ disk.startSect (minorOf r.dev) + r.sector <
      65536 * disk.head (minorOf r.dev / 5) * disk.sect (minorOf r.dev / 5) := by
  obtain ⟨hminor, hguard, hdrive, hsect, hheads, hhead, hregs⟩ := issued_some h
  obtain ⟨-, hheadof, hsectof⟩ := sysSetup_disk hsetup
  obtain ⟨-, hle, -⟩ := hgeom (minorOf r.dev / 5) (by omega)
  have hsect' : disk.sect (minorOf r.dev / 5) < 256 := by
    rw [hsectof]
    exact littleEndian_lt bios 1 _
  have hbound : 65536 * disk.head (minorOf r.dev / 5) * disk.sect (minorOf r.dev / 5) ≤
    65536 * 16 * 255 :=
    Nat.mul_le_mul (Nat.mul_le_mul_left _ hle) (by omega)
  constructor
  · intro hright
    have hlt : (regs.command disk).next < 65536 * disk.head (minorOf r.dev / 5) * disk.sect
        (minorOf r.dev / 5) := by
      rw [hregs]
      exact command_next_lt _ _ hdrive hhead (by omega) (by omega) hsect'
    rw [hright.named] at hlt
    exact hlt
  · intro hlt
    have hmod : (r.sector + disk.startSect (minorOf r.dev)) % 2 ^ 32 = disk.startSect
        (minorOf r.dev) + r.sector := by
      rw [Nat.add_comm]
      exact Nat.mod_eq_of_lt (by omega)
    have hnamed : regs.command disk =
        ⟨minorOf r.dev / 5, disk.startSect (minorOf r.dev) + r.sector, r.nrSectors⟩ := by
      simp only [hmod] at hregs hhead
      rw [hregs]
      exact hdRegisters_command hdrive (by omega) (by omega) hhead hsect' le_rfl
        (Nat.add_comm _ _ ▸ hlt)
    rw [Nat.mod_eq_of_lt (by omega)] at hguard
    have hinside : disk.startSect (minorOf r.dev) + r.sector + r.nrSectors ≤
        disk.startSect (minorOf r.dev) + disk.nrSects (minorOf r.dev) := by omega
    exact ⟨hnamed, hnamed ▸ Nat.le_add_right .., hnamed ▸ hinside⟩

section Driver
variable [DecidableEq β] {s t : Drive β} {c : Slot} {cmd : Command} {fuel : Nat}

theorem endRequest_command {uptodate : Bool} (h : s.endRequest uptodate = .ok t) :
    t.command = s.command := by
  simp only [Drive.endRequest, bind, Except.bind] at h
  cases hend : hdEndRequest uptodate s.hd with
  | error e => simp [hend] at h
  | ok hd =>
    simp only [hend, pure, Except.pure, Except.ok.injEq] at h
    rw [← h]

/-- The command that `do_hd_request` leaves is the one it found, or the one it has issued for
the request it has stopped at. -/
theorem doHdRequest_command (fuel : Nat) (h : s.doHdRequest disk fuel = .ok t) :
    t.command = s.command ∨
      ∃ c regs, t.hd.current = some c ∧ issued disk (t.hd.io.request c) = some regs ∧
        t.command = some (regs.command disk) := by
  induction fuel generalizing s with
  | zero => cases h
  | succ fuel ih =>
    cases hc : s.hd.current with
    | none =>
      simp only [Drive.doHdRequest, hc, Except.ok.injEq] at h
      exact .inl (h ▸ rfl)
    | some c =>
      simp only [Drive.doHdRequest, hc] at h
      split at h
      · cases h
      split at h
      · cases h
      by_cases hrej : 5 * disk.nrHd ≤ minorOf (s.hd.io.request c).dev ∨
          disk.nrSects (minorOf (s.hd.io.request c).dev) < ((s.hd.io.request c).sector + 2) % 2 ^ 32
      · simp only [if_pos hrej, bind, Except.bind] at h
        cases hend : s.endRequest false with
        | error e => simp [hend] at h
        | ok u =>
          simp only [hend] at h
          rw [← endRequest_command hend]
          exact ih h
      simp only [if_neg hrej] at h
      by_cases hdiv : disk.sect (minorOf (s.hd.io.request c).dev / 5) = 0 ∨
        disk.head (minorOf (s.hd.io.request c).dev / 5) = 0
      · simp [hdiv] at h
      simp only [if_neg hdiv] at h
      split at h
      · exact .inl (Except.ok.inj h ▸ rfl)
      split at h
      · simp only [Drive.hdOut, BlkDrv.hdOut, bind, Except.bind] at h
        split at h
        · cases h
        rename_i hok
        split at hok
        · cases hok
        rename_i hout
        simp only [not_true_eq_false, if_false, Except.ok.injEq] at hok
        simp only [pure, Except.pure, Except.ok.injEq] at h
        rw [← h, ← hok]
        refine .inr ⟨c, _, hc, ?_, rfl⟩
        simp only [issued, if_neg hrej, if_neg hdiv]
        exact if_neg hout
      · cases h

/-- A command of `do_hd_request` is right exactly when the absolute sector is one that the
registers can name. -/
theorem command_right_iff (hsetup : sysSetup bios first = some disk)
    (hgeom : ∀ drive < disk.nrHd, 1 ≤ disk.head drive ∧ disk.head drive ≤ 16 ∧ 1 ≤ disk.sect drive)
    (hidle : s.command = none) (h : s.doHdRequest disk fuel = .ok t) (hcmd : t.command = some cmd)
    (hc : t.hd.current = some c) (hsector : (t.hd.io.request c).sector < 2 ^ 32)
    (hnr : (t.hd.io.request c).nrSectors = 1 ∨ (t.hd.io.request c).nrSectors = 2) :
    AddressRight disk (t.hd.io.request c) cmd ↔
      disk.startSect (minorOf (t.hd.io.request c).dev) + (t.hd.io.request c).sector <
        65536 * disk.head (minorOf (t.hd.io.request c).dev / 5) * disk.sect
          (minorOf (t.hd.io.request c).dev / 5) := by
  obtain hsame | ⟨d, regs, hd, hissued, hregs⟩ := doHdRequest_command fuel h
  · rw [hcmd, hidle] at hsame
    cases hsame
  · obtain rfl : d = c := Option.some.inj (hd.symm.trans hc)
    obtain rfl : cmd = regs.command disk := Option.some.inj (hcmd.symm.trans hregs)
    exact issued_right_iff hsetup hgeom hsector hnr hissued

end Driver

def smallDrive (k : Nat) : BitVec 8 :=
  if k = 0 then 100 else if k = 2 then 4 else if k = 14 then 17 else 0

def firstBlock (start nr : Nat) : Block := fun k =>
  if k = 510 then 0x55 else if k = 511 then 0xAA
  else if 454 ≤ k ∧ k < 458 then BitVec.ofNat 8 (start / 256 ^ (k - 454))
  else if 458 ≤ k ∧ k < 462 then BitVec.ofNat 8 (nr / 256 ^ (k - 458))
  else 0

def queuedBlock (blocknr : Nat) : Drive Unit where
  hd := { io := { bh := fun _ => ⟨fun _ => 0, blocknr, 0x301, false, false, 1, true, none,
    none, none, none⟩
                  request := fun _ => ⟨0x301, READ, 0, 2 * blocknr, 2, 0, some (), none⟩
                  currentRequest := fun major => if major = MAJOR_NR then some 0 else none
                  requestFn := fun _ => true }
          doHd := false
          reset := false }
  command := none
  ended := []

/-- A partition that starts two sectors before the end of 32 bits: the read of its block 1
goes to the start of the drive. -/
theorem address_wraps :
    ∃ disk t, sysSetup smallDrive (fun _ => some (firstBlock (2 ^ 32 - 2) 100)) = some disk ∧
      (∀ drive < disk.nrHd, 1 ≤ disk.head drive ∧ disk.head drive ≤ 16 ∧ 1 ≤ disk.sect drive) ∧
      (queuedBlock 1).doHdRequest disk 2 = .ok t ∧ t.command = some ⟨0, 0, 2⟩ ∧
      t.hd.current = some 0 ∧ ¬ AddressRight disk (t.hd.io.request 0) ⟨0, 0, 2⟩ := by
  refine ⟨_, _, rfl, by decide, rfl, by decide, by decide, fun h => ?_⟩
  have hstart := h.start
  revert hstart
  decide

theorem address_right_small :
    ∃ disk t, sysSetup smallDrive (fun _ => some (firstBlock 17 100)) = some disk ∧
      (queuedBlock 1).doHdRequest disk 2 = .ok t ∧
      AddressRight disk (t.hd.io.request 0) ⟨0, 19, 2⟩ := by
  have hrun : ∃ disk t, sysSetup smallDrive (fun _ => some (firstBlock 17 100)) = some disk ∧
      (queuedBlock 1).doHdRequest disk 2 = .ok t ∧
      (∀ drive < disk.nrHd, 1 ≤ disk.head drive ∧ disk.head drive ≤ 16 ∧ 1 ≤ disk.sect drive) ∧
      disk.startSect 1 + 2 < 65536 * disk.head 0 * disk.sect 0 ∧
      t.hd.current = some 0 ∧ t.command = some ⟨0, 19, 2⟩ ∧ (t.hd.io.request 0).sector = 2 ∧
      (t.hd.io.request 0).nrSectors = 2 ∧ (t.hd.io.request 0).dev = 0x301 :=
    ⟨_, _, rfl, rfl, by decide, by decide, rfl, by decide, rfl, rfl, rfl⟩
  obtain ⟨disk, t, hsetup, ht, hgeom, hlt, hc, hcmd, hsector, hnr, hdev⟩ := hrun
  refine ⟨disk, t, hsetup, ht, (command_right_iff hsetup hgeom rfl ht hcmd hc ?_ (.inr hnr)).mpr ?_⟩
  · rw [hsector]
    decide
  · rw [hsector, hdev]
    exact hlt

end Hios.BlkDrv
