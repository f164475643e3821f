import Hios.Lib.LongMemory

/-! `boot/bootsect.s`. The words `sread`, `head` and `track` of the boot sector
are fields of the state. -/
namespace Hios.Boot
open Hios.LongMemory

def SYSSIZE : BitVec 16 := 0x3000
def SETUPLEN : BitVec 16 := 0x04
def BOOTSEG : BitVec 16 := 0x07c0
def INITSEG : BitVec 16 := 0x9000
def SYSSEG : BitVec 16 := 0x1000
def ENDSEG : BitVec 16 := SYSSEG + SYSSIZE

def linear (seg off : BitVec 16) : BitVec 32 := seg.setWidth 32 * 16 + off.setWidth 32

def repMovsw (ds es : BitVec 16) : Nat → BitVec 16 → BitVec 16 → Memory → Memory
  | 0, _, _, m => m
  | cx + 1, si, di, m =>
    let lo := m (linear ds si)
    let hi := m (linear ds (si + 1))
    repMovsw ds es cx (si + 2) (di + 2) fun x =>
      if x = linear es di then lo else if x = linear es (di + 1) then hi else m x

/-- The drive that `int $0x13` reads from: two heads, `sectors` to a track, and
`data track head sector` the bytes of a sector, sectors counting from 1. Call
number `k` of the read service fails when `fails k` says so, and may then have
left anything in its buffer. -/
structure Floppy where
  sectors : Nat
  tracks : Nat
  data : Nat → Nat → Nat → Nat → BitVec 8
  fails : Nat → Bool
  debris : Nat → BitVec 32 → BitVec 8

def fill (base : BitVec 32) (n : Nat) (f : BitVec 32 → BitVec 8) (m : Memory) : Memory := fun x =>
  if (x - base).toNat < n then f x else m x

def Floppy.accepts (d : Floppy) (ax cx dx es bx : BitVec 16) : Bool :=
  let count := ax.toNat % 256
  let sector := cx.toNat % 64
  let track := cx.toNat / 256 + 256 * (cx.toNat / 64 % 4)
  1 ≤ count && 1 ≤ sector && sector + count ≤ d.sectors + 1 && track < d.tracks &&
    dx.toNat / 256 < 2 &&
    (linear es bx).toNat % 0x10000 + 512 * count ≤ 0x10000

def Floppy.bytes (d : Floppy) (cx dx : BitVec 16) (base x : BitVec 32) : BitVec 8 :=
  let track := cx.toNat / 256 + 256 * (cx.toNat / 64 % 4)
  d.data track (dx.toNat / 256) (cx.toNat % 64 + (x - base).toNat / 512) ((x - base).toNat % 512)

def int13Read (d : Floppy) (k : Nat) (ax cx dx es bx : BitVec 16) (m : Memory) : Bool × Memory :=
  let base := linear es bx
  let size := 512 * (ax.toNat % 256)
  if d.fails k || !d.accepts ax cx dx es bx then (true, fill base size (d.debris k) m)
  else (false, fill base size (d.bytes cx dx base) m)

/-- The read is made again until it succeeds; between two tries the drive is reset. -/
def readAgain (d : Floppy) (ax cx dx es bx : BitVec 16) : Nat → Nat → Memory → Option (Nat × Memory)
  | 0, _, _ => none
  | fuel + 1, k, m =>
    let (carry, m) := int13Read d k ax cx dx es bx m
    if carry then readAgain d ax cx dx es bx fuel (k + 1) m else some (k + 1, m)

structure Loader where
  mem : Memory
  es : BitVec 16
  bx : BitVec 16
  sread : BitVec 16
  head : BitVec 16
  track : BitVec 16
  calls : Nat

def loadSetup (d : Floppy) (fuel : Nat) (k : Nat) (m : Memory) : Option (Nat × Memory) :=
  readAgain d (0x0200 ||| SETUPLEN) 0x0002 0x0000 INITSEG 0x0200 fuel k m

def trackCx (s : Loader) : BitVec 16 := s.track.setWidth 8 ++ (s.sread + 1).setWidth 8

def trackDx (s : Loader) : BitVec 16 := (s.head.setWidth 8 ++ 0#8) &&& 0x0100#16

def readTrack (d : Floppy) (fuel : Nat) (ax : BitVec 16) (s : Loader) : Option Loader :=
  (readAgain d (2#8 ++ ax.setWidth 8) (trackCx s) (trackDx s) s.es s.bx fuel s.calls s.mem).map fun
    (calls, mem) =>
    { s with mem, calls }

def ok3Read (ax cx : BitVec 16) (s : Loader) : Loader :=
  let s := { s with sread := ax }
  let cx := cx <<< 9
  if s.bx.toNat + cx.toNat < 0x10000 then { s with bx := s.bx + cx }
    else { s with es := s.es + 0x1000, bx := 0 }

def ok4Read (ax cx : BitVec 16) (s : Loader) : Loader := ok3Read 0 cx { s with head := ax }

def ok2Read (d : Floppy) (sectors : BitVec 16) (fuel : Nat) (ax : BitVec 16) (s : Loader) :
    Option Loader :=
  (readTrack d fuel ax s).map fun s =>
    let cx := ax
    let ax := ax + s.sread
    if ax ≠ sectors then ok3Read ax cx s
    else
      let ax := 1 - s.head
      ok4Read ax cx (if ax ≠ 0 then s else { s with track := s.track + 1 })

def ok1Read (d : Floppy) (sectors : BitVec 16) (fuel : Nat) (s : Loader) : Option Loader :=
  let ax := sectors - s.sread
  let cx := ax <<< 9
  let sum := cx.toNat + s.bx.toNat
  if sum < 0x10000 || sum % 0x10000 = 0 then ok2Read d sectors fuel ax s
  else ok2Read d sectors fuel ((0 - s.bx) >>> 9) s

def rpRead (d : Floppy) (sectors : BitVec 16) : Nat → Loader → Option Loader
  | 0, _ => none
  | fuel + 1, s =>
    if s.es < ENDSEG then (ok1Read d sectors (fuel + 1) s).bind (rpRead d sectors fuel) else some s

def readIt (d : Floppy) (sectors : BitVec 16) (fuel : Nat) (s : Loader) : Option Loader :=
  if s.es &&& 0x0fff ≠ 0 then none else rpRead d sectors fuel { s with bx := 0 }

/-- The boot sector moves itself away, and loads `setup` behind it and the system
at `SYSSEG`. `sectors` is what service 8 of `int $0x13` says of the drive. -/
def bootsect (d : Floppy) (fuel : Nat) (m : Memory) : Option Loader :=
  let m := repMovsw BOOTSEG INITSEG 256 0 0 m
  (loadSetup d fuel 0 m).bind fun (calls, m) =>
    readIt d (BitVec.ofNat 16 d.sectors) fuel
      { mem := m, es := SYSSEG, bx := 0, sread := 1 + SETUPLEN, head := 0, track := 0, calls }

end Hios.Boot
