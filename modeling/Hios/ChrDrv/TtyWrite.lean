import Hios.ChrDrv.Console

/-! `_user_tty_write` puts all bytes into `write_q` before `con_write` takes the first
one out of it. -/
namespace Hios.ChrDrv
open Hios.RingBuffer

/-- The loop of `con_write` with the calls of `video_putchar`. -/
def conWriteCalls : Nat → Queue → Console → List Ch → List Ch × Queue × Console
  | 0, q, c, calls => (calls, q, c)
  | fuel + 1, q, c, calls =>
    if EMPTY q then (calls, q, c)
    else
      let (ch, q) := q.get
      conWriteCalls fuel q (videoPutchar ch c) (calls ++ [ch])

structure Written where
  tty : Tty
  console : Console
  calls : List Ch
  result : Int

def ttyWrite (tty : Tty) (c : Console) : List Ch × Tty × Console :=
  let (calls, writeQ, c) := conWriteCalls tty.writeQ.size tty.writeQ c []
  (calls, { tty with writeQ }, c)

/-- The loop of `_user_tty_write` with `n` bytes to go; `getFsByte` is the memory of the process. -/
def putLoop (getFsByte : Nat → Ch) (buf : Nat) : Nat → Nat → Queue → Queue
  | 0, _, q => q
  | n + 1, i, q => putLoop getFsByte buf n (i + 1) (q.put (getFsByte ((buf + i) % 2 ^ 32)))

def userTtyWrite (getFsByte : Nat → Ch) (buf : Nat) (nr : Int) (tty : Tty) (c : Console) :
    Written :=
  let (calls, tty, c) :=
    ttyWrite { tty with writeQ := putLoop getFsByte buf nr.toNat 0 tty.writeQ } c
  ⟨tty, c, calls, nr⟩

def userBytes (getFsByte : Nat → Ch) (buf nr : Nat) : List Ch :=
  (List.range nr).map fun i => getFsByte ((buf + i) % 2 ^ 32)

@[simp] theorem length_userBytes (getFsByte : Nat → Ch) (buf nr : Nat) :
    (userBytes getFsByte buf nr).length = nr := by
  simp [userBytes]

theorem conWriteCalls_screen (fuel : Nat) (q : Queue) (c : Console) (calls : List Ch) :
    (conWriteCalls fuel q c calls).2 = conWriteLoop fuel q c := by
  induction fuel generalizing q c calls with
  | zero => rfl
  | succ fuel ih =>
    rw [conWriteCalls, conWriteLoop]
    by_cases he : EMPTY q
    · rw [if_pos he, if_pos he]
    · rw [if_neg he, if_neg he]
      exact ih q.get.2 (videoPutchar q.get.1 c) (calls ++ [q.get.1])

theorem conWriteCalls_calls (fuel : Nat) (q : Queue) (c : Console) (calls : List Ch)
    (hfuel : q.size = fuel) :
    (conWriteCalls fuel q c calls).1 = calls ++ q.contents := by
  induction fuel generalizing q c calls with
  | zero =>
    have hnil : q.contents = [] := Ring.contents_eq_nil.mpr (Ring.size_eq_zero.mp hfuel)
    rw [hnil, List.append_nil]
    rfl
  | succ fuel ih =>
    have hne : ¬ EMPTY q := by
      intro he
      rw [Ring.size_eq_zero.mpr he] at hfuel
      cases hfuel
    have hsize := Ring.size_get hne
    rw [conWriteCalls, if_neg hne, Ring.contents_get hne, List.append_cons]
    exact ih q.get.2 (videoPutchar q.get.1 c) (calls ++ [q.get.1]) (by omega)

theorem ttyWrite_spec (tty : Tty) (c : Console) :
    (ttyWrite tty c).1 = tty.writeQ.contents ∧ EMPTY (ttyWrite tty c).2.1.writeQ ∧
      (ttyWrite tty c).2.2 = putText (ttyWrite tty c).1 c := by
  have hcalls := conWriteCalls_calls tty.writeQ.size tty.writeQ c [] rfl
  have hscreen := (conWriteCalls_screen tty.writeQ.size tty.writeQ c []).trans
    (conWriteScreen_eq tty.writeQ c)
  rw [List.nil_append] at hcalls
  refine ⟨hcalls, ?_, ?_⟩
  · exact congrArg (fun r : Queue × Console => r.1.head = r.1.tail) hscreen |>.mpr rfl
  · exact (congrArg Prod.snd hscreen).trans (congrArg (putText · c) hcalls.symm)

theorem putLoop_eq (getFsByte : Nat → Ch) (buf n i : Nat) (q : Queue) :
    putLoop getFsByte buf n i q =
      q.putAll ((List.range' i n).map fun i => getFsByte ((buf + i) % 2 ^ 32)) := by
  induction n generalizing i q with
  | zero => rfl
  | succ n ih =>
    rw [List.range'_succ, List.map_cons]
    exact ih (i + 1) (q.put (getFsByte ((buf + i) % 2 ^ 32)))

theorem putLoop_userBytes (getFsByte : Nat → Ch) (buf n : Nat) (q : Queue) :
    putLoop getFsByte buf n 0 q = q.putAll (userBytes getFsByte buf n) := by
  rw [putLoop_eq, userBytes, List.range_eq_range']

theorem userTtyWrite_calls (getFsByte : Nat → Ch) (buf : Nat) (nr : Int) (tty : Tty) (c : Console) :
    (userTtyWrite getFsByte buf nr tty c).calls =
      (tty.writeQ.putAll (userBytes getFsByte buf nr.toNat)).contents := by
  rw [← putLoop_userBytes]
  exact (ttyWrite_spec _ c).1

/-- Whatever was written, the queue is empty, and the screen shows the calls. -/
theorem userTtyWrite_empty (getFsByte : Nat → Ch) (buf : Nat) (nr : Int) (tty : Tty) (c : Console) :
    EMPTY (userTtyWrite getFsByte buf nr tty c).tty.writeQ ∧
      (userTtyWrite getFsByte buf nr tty c).console = putText
        (userTtyWrite getFsByte buf nr tty c).calls c :=
  (ttyWrite_spec _ c).2

theorem userTtyWrite_calls_iff (getFsByte : Nat → Ch) (buf : Nat) (nr : Int) {tty : Tty}
    (c : Console) (hempty : EMPTY tty.writeQ) (hnr : 0 ≤ nr) :
    (userTtyWrite getFsByte buf nr tty c).calls = userBytes getFsByte buf nr.toNat ↔
    nr < TTY_BUF_SIZE := by
  have hsize : tty.writeQ.size = 0 := Ring.size_eq_zero.mpr hempty
  have hnil : tty.writeQ.contents = [] := Ring.contents_eq_nil.mpr hempty
  rw [userTtyWrite_calls]
  constructor
  · intro h
    by_contra hlong
    refine Ring.contents_putAll_ne ?_ (h.trans (by rw [hnil, List.nil_append]))
    rw [hsize, length_userBytes]
    omega
  · intro h
    rw [Ring.contents_putAll (by rw [hsize, length_userBytes]; omega), hnil, List.nil_append]

/-- All bytes reach the screen exactly when there are fewer of them than the ring has cells. -/
theorem tty_write_complete_iff (getFsByte : Nat → Ch) (buf : Nat) (nr : Int) (tty : Tty)
    (c : Console) (hempty : EMPTY tty.writeQ) (hnr : 0 ≤ nr) :
    (userTtyWrite getFsByte buf nr tty c).calls = userBytes getFsByte buf nr.toNat ∧
        EMPTY (userTtyWrite getFsByte buf nr tty c).tty.writeQ ↔ nr < TTY_BUF_SIZE := by
  rw [userTtyWrite_calls_iff getFsByte buf nr c hempty hnr]
  exact and_iff_left (userTtyWrite_empty getFsByte buf nr tty c).1

theorem tty_write_complete_iff_letters :
    (userTtyWrite (fun _ => 65) 0 3 bootLine.tty ⟨0, 0, fun _ => 0, 0, 0⟩).calls = userBytes
      (fun _ => 65) 0 3 ∧
        EMPTY (userTtyWrite (fun _ => 65) 0 3 bootLine.tty ⟨0, 0, fun _ => 0, 0, 0⟩).tty.writeQ ↔
        (3 : Int) < TTY_BUF_SIZE :=
  tty_write_complete_iff (fun _ => 65) 0 3 bootLine.tty ⟨0, 0, fun _ => 0, 0, 0⟩ rfl (by decide)

theorem tty_write_1024_lost :
    EMPTY bootLine.tty.writeQ ∧
      (userTtyWrite (fun _ => 65) 0 1024 bootLine.tty ⟨0, 0, fun _ => 0, 0, 0⟩).calls = [] ∧
        (userTtyWrite (fun _ => 65) 0 1024 bootLine.tty ⟨0, 0, fun _ => 0, 0, 0⟩).calls ≠ userBytes
          (fun _ => 65) 0 1024 := by
  have hnil : (userTtyWrite (fun _ => 65) 0 1024 bootLine.tty ⟨0, 0, fun _ => 0, 0, 0⟩).calls =
      [] := by
    have hsize := Ring.size_putAll bootLine.tty.writeQ (userBytes (fun _ => 65) 0 1024)
    rw [length_userBytes] at hsize
    rw [userTtyWrite_calls]
    exact Ring.contents_eq_nil.mpr (Ring.size_eq_zero.mp hsize)
  refine ⟨rfl, hnil, fun h => ?_⟩
  have hlen := length_userBytes (fun _ => 65) 0 1024
  rw [← h, hnil] at hlen
  cases hlen

end Hios.ChrDrv
