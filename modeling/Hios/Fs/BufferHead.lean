/-! The buffer head of `include/linux/fs.h`. `β` names the heads of the array
at `start_buffer`; `δ` is the contents of a 1024-byte block. -/
namespace Hios.Fs

def NR_HASH : Nat := 307

structure BufferHead (β δ : Type) where
  bData : δ
  bBlocknr : Nat
  /-- `unsigned short`, 0 = free. -/
  bDev : Nat
  bUptodate : Bool
  bDirt : Bool
  /-- `unsigned char`: it counts modulo 256. -/
  bCount : Nat
  bLock : Bool
  bPrev : Option β
  bNext : Option β
  bPrevFree : Option β
  bNextFree : Option β

end Hios.Fs
