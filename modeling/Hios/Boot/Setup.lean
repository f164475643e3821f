import Hios.Boot.BootSector

/-! `boot/setup.s`: the parameters of the machine, and the move of the system to
address 0. -/
namespace Hios.Boot
open Hios.LongMemory

structure Bios where
  cursor : BitVec 16
  extMem : BitVec 16
  videoPage : BitVec 16
  videoMode : BitVec 16
  egaAx : BitVec 16
  egaBx : BitVec 16
  egaCx : BitVec 16
  secondDisk : Bool

def getWord (m : Memory) (a : BitVec 32) : BitVec 16 := m (a + 1) ++ m a

def putWord (a : BitVec 32) (w : BitVec 16) (m : Memory) : Memory := fun x =>
  if x = a then w.setWidth 8 else if x = a + 1 then (w >>> 8).setWidth 8 else m x

def repMovsb (ds es : BitVec 16) : Nat → BitVec 16 → BitVec 16 → Memory → Memory
  | 0, _, _, m => m
  | cx + 1, si, di, m =>
    repMovsb ds es cx (si + 1) (di + 1) fun x => if x = linear es di then m (linear ds si) else m x

def repStosb (es : BitVec 16) (al : BitVec 8) : Nat → BitVec 16 → Memory → Memory
  | 0, _, m => m
  | cx + 1, di, m => repStosb es al cx (di + 1) fun x => if x = linear es di then al else m x

def copyTable (a : BitVec 32) (di : BitVec 16) (m : Memory) : Memory :=
  repMovsb (getWord m (a + 2)) INITSEG 16 (getWord m a) di m

def storeParameters (b : Bios) (m : Memory) : Memory :=
  let m := putWord (linear INITSEG 0) b.cursor m
  let m := putWord (linear INITSEG 2) b.extMem m
  let m := putWord (linear INITSEG 6) b.videoMode (putWord (linear INITSEG 4) b.videoPage m)
  let m := putWord (linear INITSEG 8) b.egaAx m
  let m := putWord (linear INITSEG 12) b.egaCx (putWord (linear INITSEG 10) b.egaBx m)
  let m := copyTable (4 * 0x46) 0x0090 (copyTable (4 * 0x41) 0x0080 m)
  if b.secondDisk then m else repStosb INITSEG 0 16 0x0090 m

def doMove : Nat → BitVec 16 → Memory → Option Memory
  | 0, _, _ => none
  | fuel + 1, ax, m =>
    let es := ax
    let ax := ax + 0x1000
    if ax = 0x9000 then some m else doMove fuel ax (repMovsw ax es 0x8000 0 0 m)

def setup (b : Bios) (fuel : Nat) (m : Memory) : Option Memory :=
  doMove fuel 0 (storeParameters b m)

end Hios.Boot
