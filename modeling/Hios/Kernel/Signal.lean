import Hios.Lib.LongMemory
import Hios.Mm.Entry

/-! Signal delivery: `do_signal` and the frame it builds on the user stack,
`sys_sigaction`, and the restorers of `libc_restore.s` that take the frame down. -/
namespace Hios.Kernel
open Hios.LongMemory Hios.Mm

def SIGKILL : Int := 9

def SA_NOMASK : Word := 0x40000000
def SA_ONESHOT : Word := 0x80000000

structure SigAction where
  saHandler : Word
  saMask : Word
  saFlags : Word
  saRestorer : Word

def SigAction.nomask (sa : SigAction) : Prop := sa.saFlags &&& SA_NOMASK ≠ 0

instance (sa : SigAction) : Decidable sa.nomask := inferInstanceAs (Decidable (_ ≠ _))

/-- What a process has of signals, with its data segment. `sigaction` and the bits
of the masks count from 0, signals from 1. -/
structure SigTask where
  signal : Word
  blocked : Word
  sigaction : Fin 32 → SigAction
  mem : Memory

def SigTask.setAction (p : SigTask) (s : Fin 32) (sa : SigAction) : SigTask :=
  { p with sigaction := Function.update p.sigaction s sa }

/-- The user's registers, as `system_call` saves them on the kernel stack. -/
structure Context where
  eax : Word
  ebx : Word
  ecx : Word
  edx : Word
  fs : Word
  es : Word
  ds : Word
  eip : Word
  cs : Word
  eflags : Word
  esp : Word
  ss : Word

def sigBit (s : Fin 32) : Word := 1#32 <<< s.val

def getNew (p : SigTask) (src : Word) : SigAction :=
  ⟨getLong p.mem src, getLong p.mem (src + 4), getLong p.mem (src + 8), getLong p.mem (src + 12)⟩

def saveOld (sa : SigAction) (dest : Word) (p : SigTask) : SigTask :=
  { p with mem := putLongs p.mem dest [sa.saHandler, sa.saMask, sa.saFlags, sa.saRestorer] }

def handledMask (s : Fin 32) (sa : SigAction) : SigAction :=
  if sa.nomask then { sa with saMask := 0 } else { sa with saMask := sa.saMask ||| sigBit s }

def sysSigaction (signum : Int) (action oldAction : Word) (p : SigTask) : Int × SigTask :=
  if h : signum < 1 ∨ signum > 32 ∨ signum = SIGKILL then (-1, p)
  else
    let s : Fin 32 := ⟨(signum - 1).toNat, by omega⟩
    let tmp := p.sigaction s
    let p := p.setAction s (getNew p action)
    let p := if oldAction ≠ 0 then saveOld tmp oldAction p else p
    (0, p.setAction s (handledMask s (p.sigaction s)))

/-- The longs that `do_signal` puts on the user stack, lowest address first. -/
def signalFrame (s : Fin 32) (sa : SigAction) (blocked : Word) (c : Context) : List Word :=
  [sa.saRestorer, BitVec.ofNat 32 (s.val + 1)] ++ (if sa.nomask then [] else [blocked]) ++
    [c.eax, c.ecx, c.edx, c.eflags, c.eip]

def frameSize (sa : SigAction) : Nat := if sa.nomask then 7 else 8

/-- `do_signal` for signal `s + 1`. The default action of a signal is to do
nothing: `do_exit` is commented out. -/
def doSignal (s : Fin 32) (c : Context) (p : SigTask) : Context × SigTask :=
  let sa := p.sigaction s
  if sa.saHandler = 1 ∨ sa.saHandler = 0 then (c, p)
  else
    let p := if sa.saFlags &&& SA_ONESHOT ≠ 0 then p.setAction s { sa with saHandler := 0 } else p
    let esp := c.esp - BitVec.ofNat 32 (4 * frameSize sa)
    let mem := putLongs p.mem esp (signalFrame s sa p.blocked c)
    ({ c with eip := sa.saHandler, esp := esp }, { p with mem, blocked := p.blocked ||| sa.saMask })

def lowestBit (w : Word) : Option (Fin 32) := (List.finRange 32).find? fun i => w.getLsbD i

/-- `ret_from_syscall`, up to the `iret`. `task0` tells whether `current` is `task[0]`. -/
def retFromSyscall (task0 : Bool) (c : Context) (p : SigTask) : Context × SigTask :=
  if task0 then (c, p)
  else if c.cs.setWidth 16 ≠ 0x0f#16 ∨ c.ss.setWidth 16 ≠ 0x17#16 then (c, p)
  else match lowestBit (~~~p.blocked &&& p.signal) with
  | none => (c, p)
  | some s => doSignal s c { p with signal := p.signal &&& ~~~(sigBit s) }

def USER_FLAGS : Word := 0x00004dd5

def popFlags (new old : Word) : Word := (new &&& USER_FLAGS) ||| (old &&& ~~~USER_FLAGS)

def pop (mem : Memory) (c : Context) : Word × Context :=
  (getLong mem c.esp, { c with esp := c.esp + 4 })

def ret (mem : Memory) (c : Context) : Context :=
  let (eip, c) := pop mem c
  { c with eip }

def popFrame (mem : Memory) (c : Context) : Context :=
  let (eax, c) := pop mem c
  let c := { c with eax }
  let (ecx, c) := pop mem c
  let c := { c with ecx }
  let (edx, c) := pop mem c
  let c := { c with edx }
  let (flags, c) := pop mem c
  let c := { c with eflags := popFlags flags c.eflags }
  ret mem c

def sigRestore (mem : Memory) (c : Context) : Context := popFrame mem { c with esp := c.esp + 4 }

/-- `__masksig_restore`: the call of `__ssetmask` is commented out. -/
def masksigRestore (mem : Memory) (c : Context) : Context :=
  popFrame mem { c with esp := c.esp + 4 + 4 }

def restorer (sa : SigAction) : Memory → Context → Context :=
  if sa.nomask then sigRestore else masksigRestore

structure Delivers (s : Fin 32) (c : Context) (p : SigTask) : Prop where
  cs : c.cs.setWidth 16 = 0x0f#16
  ss : c.ss.setWidth 16 = 0x17#16
  lowest : lowestBit (~~~p.blocked &&& p.signal) = some s
  handler : (p.sigaction s).saHandler ≠ 0
  notIgnored : (p.sigaction s).saHandler ≠ 1

def Installed (s : Fin 32) (p : SigTask) : Prop :=
  ∃ action oldAction q,
    p.sigaction s = (sysSigaction (s.val + 1) action oldAction q).2.sigaction s ∧
    (sysSigaction (s.val + 1) action oldAction q).1 = 0

/-- The handler has come to its `ret` with the stack pointer, the frame of `n`
longs and the flags it may not change as it found them. -/
structure HandlerEnds (n : Nat) (c : Context) (p : SigTask) (c' : Context) (p' : SigTask) :
  Prop where
  esp : c'.esp = c.esp
  frame : ∀ i < n, getLong p'.mem (c.esp + BitVec.ofNat 32 (4 * i)) =
    getLong p.mem (c.esp + BitVec.ofNat 32 (4 * i))
  eflags : c'.eflags &&& ~~~USER_FLAGS = c.eflags &&& ~~~USER_FLAGS

structure Transparent (c : Context) (p : SigTask) (c' : Context) (p' : SigTask) : Prop where
  eip : c'.eip = c.eip
  esp : c'.esp = c.esp
  eflags : c'.eflags = c.eflags
  eax : c'.eax = c.eax
  ecx : c'.ecx = c.ecx
  edx : c'.edx = c.edx
  blocked : p'.blocked = p.blocked

theorem signalFrame_length (s : Fin 32) (sa : SigAction) (blocked : Word) (c : Context) :
    (signalFrame s sa blocked c).length = frameSize sa := by
  by_cases h : sa.nomask
  · simp [signalFrame, frameSize, h]
  · simp [signalFrame, frameSize, h]

theorem frameSize_le (sa : SigAction) : frameSize sa ≤ 8 := by
  unfold frameSize
  split
  · decide
  · decide

section DoSignal
variable {s : Fin 32} {c : Context} {p : SigTask} (h₀ : (p.sigaction s).saHandler ≠ 0)
  (h₁ : (p.sigaction s).saHandler ≠ 1)
include h₀ h₁

theorem doSignal_fst :
    (doSignal s c p).1 = { c with
      eip := (p.sigaction s).saHandler
      esp := c.esp - BitVec.ofNat 32 (4 * frameSize (p.sigaction s)) } := by
  rw [doSignal, if_neg (not_or.mpr ⟨h₁, h₀⟩)]

theorem doSignal_blocked :
    (doSignal s c p).2.blocked = p.blocked ||| (p.sigaction s).saMask := by
  rw [doSignal, if_neg (not_or.mpr ⟨h₁, h₀⟩)]
  by_cases h : (p.sigaction s).saFlags &&& SA_ONESHOT ≠ 0
  · simp only [if_pos h, SigTask.setAction]
  · simp only [if_neg h]

theorem doSignal_mem :
    (doSignal s c p).2.mem = putLongs p.mem
      (c.esp - BitVec.ofNat 32 (4 * frameSize (p.sigaction s)))
      (signalFrame s (p.sigaction s) p.blocked c) := by
  rw [doSignal, if_neg (not_or.mpr ⟨h₁, h₀⟩)]
  by_cases h : (p.sigaction s).saFlags &&& SA_ONESHOT ≠ 0
  · simp only [if_pos h, SigTask.setAction]
  · simp only [if_neg h]

theorem doSignal_frame (i : Nat) (hi : i < (signalFrame s (p.sigaction s) p.blocked c).length) :
    getLong (doSignal s c p).2.mem ((doSignal s c p).1.esp + BitVec.ofNat 32 (4 * i)) =
      (signalFrame s (p.sigaction s) p.blocked c)[i] := by
  have hlen : 4 * (signalFrame s (p.sigaction s) p.blocked c).length ≤ 2 ^ 32 := by
    have := frameSize_le (p.sigaction s)
    rw [signalFrame_length]
    omega
  rw [doSignal_mem h₀ h₁, doSignal_fst h₀ h₁]
  exact getLong_putLongs hlen i hi

end DoSignal

theorem popFlags_eq {new old : Word} (h : old &&& ~~~USER_FLAGS = new &&& ~~~USER_FLAGS) :
    popFlags new old = new := by
  rw [popFlags, h]
  apply BitVec.eq_of_getLsbD_eq
  intro i hi
  simp only [BitVec.getLsbD_or, BitVec.getLsbD_and, BitVec.getLsbD_not, hi, decide_true,
    Bool.true_and]
  cases USER_FLAGS.getLsbD i with
  | true => simp
  | false => simp

theorem popFrame_eq {mem : Memory} {d : Context} {eax ecx edx eflags eip : Word}
    (hat : ∀ i, (hi : i < 5) →
      getLong mem (d.esp + BitVec.ofNat 32 (4 * i)) = [eax, ecx, edx, eflags, eip][i])
    (hflags : d.eflags &&& ~~~USER_FLAGS = eflags &&& ~~~USER_FLAGS) :
    popFrame mem d = { d with eax, ecx, edx, eflags, eip, esp := d.esp + 20 } := by
  have h₀ : getLong mem d.esp = eax := by
    have hzero := hat 0 (by decide)
    rwa [Nat.mul_zero, BitVec.add_zero] at hzero
  have h₁ : getLong mem (d.esp + 4) = ecx := hat 1 (by decide)
  have h₂ : getLong mem (d.esp + 8) = edx := hat 2 (by decide)
  have h₃ : getLong mem (d.esp + 12) = eflags := hat 3 (by decide)
  have h₄ : getLong mem (d.esp + 16) = eip := hat 4 (by decide)
  have a₁ : d.esp + 4 + 4 = d.esp + 8 := by bv_omega
  have a₂ : d.esp + 8 + 4 = d.esp + 12 := by bv_omega
  have a₃ : d.esp + 12 + 4 = d.esp + 16 := by bv_omega
  have a₄ : d.esp + 16 + 4 = d.esp + 20 := by bv_omega
  simp only [popFrame, ret, pop, a₁, a₂, a₃, a₄, h₀, h₁, h₂, h₃, h₄, popFlags_eq hflags]

def dropped (sa : SigAction) : Nat := if sa.nomask then 1 else 2

theorem restorer_eq (sa : SigAction) (mem : Memory) (c : Context) :
    restorer sa mem c = popFrame mem
      { c with esp := c.esp + BitVec.ofNat 32 (4 * dropped sa) } := by
  by_cases h : sa.nomask
  · simp only [restorer, dropped, if_pos h, sigRestore]
    rfl
  · have haddr : c.esp + 4 + 4 = c.esp + 8 := by bv_omega
    simp only [restorer, dropped, if_neg h, masksigRestore, haddr]
    rfl

/-- Behind the restorer's address and the dropped longs come the saved registers. -/
theorem signalFrame_saved (s : Fin 32) (sa : SigAction) (blocked : Word) (c : Context) (i : Nat)
    (hi : i < 5) (h : 1 + dropped sa + i < (signalFrame s sa blocked c).length) :
    (signalFrame s sa blocked c)[1 + dropped sa + i] =
      [c.eax, c.ecx, c.edx, c.eflags, c.eip][i] := by
  have hsplit : signalFrame s sa blocked c =
      ([sa.saRestorer, BitVec.ofNat 32 (s.val + 1)] ++ (if sa.nomask then [] else [blocked])) ++
        [c.eax, c.ecx, c.edx, c.eflags, c.eip] := rfl
  have hlen : ([sa.saRestorer, BitVec.ofNat 32 (s.val + 1)] ++
      (if sa.nomask then [] else [blocked])).length = 1 + dropped sa := by
    by_cases hm : sa.nomask
    · simp [dropped, hm]
    · simp [dropped, hm]
  simp only [hsplit]
  rw [List.getElem_append_right (by omega)]
  congr 1
  omega

theorem lowestBit_some {w : Word} {s : Fin 32} (h : lowestBit w = some s) : w.getLsbD s = true := by
  simpa using List.find?_some h

theorem retFromSyscall_eq {s : Fin 32} {c : Context} {p : SigTask} (h : Delivers s c p) :
    retFromSyscall false c p = doSignal s c { p with signal := p.signal &&& ~~~(sigBit s) } := by
  have hseg : ¬ (c.cs.setWidth 16 ≠ 0x0f#16 ∨ c.ss.setWidth 16 ≠ 0x17#16) := by
    rw [h.cs, h.ss]
    decide
  rw [retFromSyscall, if_neg (by decide), if_neg hseg, h.lowest]

/-- Whatever the handler did with its registers, the restorer brings back those
of the interrupted code; the mask stays as the handler left it. -/
theorem restored_eq {s : Fin 32} {c c' : Context} {p p' : SigTask}
    (h₀ : (p.sigaction s).saHandler ≠ 0) (h₁ : (p.sigaction s).saHandler ≠ 1)
    (hend : HandlerEnds (frameSize (p.sigaction s)) (doSignal s c p).1 (doSignal s c p).2 c' p') :
    (ret p'.mem c').eip = (p.sigaction s).saRestorer ∧
      restorer (p.sigaction s) p'.mem (ret p'.mem c') =
        { c' with eax := c.eax, ecx := c.ecx, edx := c.edx, eflags := c.eflags, eip := c.eip
                  esp := c.esp } := by
  have hframe : ∀ i (hi : i < (signalFrame s (p.sigaction s) p.blocked c).length),
      getLong p'.mem (c'.esp + BitVec.ofNat 32 (4 * i)) =
        (signalFrame s (p.sigaction s) p.blocked c)[i] := by
    intro i hi
    rw [hend.esp, hend.frame i (by rwa [signalFrame_length] at hi)]
    exact doSignal_frame h₀ h₁ i hi
  have hesp : c'.esp = c.esp - BitVec.ofNat 32 (4 * frameSize (p.sigaction s)) := by
    rw [hend.esp, doSignal_fst h₀ h₁]
  have hflags : c'.eflags &&& ~~~USER_FLAGS = c.eflags &&& ~~~USER_FLAGS := by
    rw [hend.eflags, doSignal_fst h₀ h₁]
  have hsize : frameSize (p.sigaction s) = 1 + dropped (p.sigaction s) + 5 := by
    unfold frameSize dropped
    split
    · rfl
    · rfl
  have hlen := signalFrame_length s (p.sigaction s) p.blocked c
  have hret : getLong p'.mem c'.esp = (p.sigaction s).saRestorer := by
    have hzero := hframe 0 (by simp [signalFrame])
    simpa [signalFrame] using hzero
  refine ⟨hret, ?_⟩
  let d : Context := { ret p'.mem c' with
    esp := (ret p'.mem c').esp + BitVec.ofNat 32 (4 * dropped (p.sigaction s)) }
  have hdesp : d.esp = c'.esp + 4 + BitVec.ofNat 32 (4 * dropped (p.sigaction s)) := rfl
  have hat : ∀ i, (hi : i < 5) → getLong p'.mem (d.esp + BitVec.ofNat 32 (4 * i)) =
      [c.eax, c.ecx, c.edx, c.eflags, c.eip][i] := by
    intro i hi
    have haddr : d.esp + BitVec.ofNat 32 (4 * i) =
        c'.esp + BitVec.ofNat 32 (4 * (1 + dropped (p.sigaction s) + i)) := by
      rw [hdesp]
      bv_omega
    rw [haddr, hframe (1 + dropped (p.sigaction s) + i) (by omega)]
    exact signalFrame_saved s (p.sigaction s) p.blocked c i hi (by omega)
  have hlast : d.esp + 20 = c.esp := by
    rw [hdesp, hesp, hsize]
    bv_omega
  rw [restorer_eq]
  refine (popFrame_eq hat hflags).trans ?_
  rw [hlast]
  rfl

theorem sigaction_sysSigaction {s : Fin 32} {action oldAction : Word} {q : SigTask}
    (h : (sysSigaction (s.val + 1) action oldAction q).1 = 0) :
    ∃ sa, (sysSigaction (s.val + 1) action oldAction q).2.sigaction s = handledMask s sa := by
  by_cases hbad : (s.val : Int) + 1 < 1 ∨ (s.val : Int) + 1 > 32 ∨ (s.val : Int) + 1 = SIGKILL
  · rw [sysSigaction, dif_pos hbad] at h
    have hminus : (-1 : Int) = 0 := h
    omega
  · have hs : (⟨((s.val : Int) + 1 - 1).toNat, by omega⟩ : Fin 32) = s := by
      apply Fin.ext
      simp
    rw [sysSigaction, dif_neg hbad]
    simp only [hs]
    exact ⟨_, Function.update_self ..⟩

theorem nomask_handledMask (s : Fin 32) (sa : SigAction) :
    (handledMask s sa).nomask ↔ sa.nomask := by
  unfold handledMask
  split
  · rfl
  · rfl

/-- A signal that is not blocked gets blocked by its own delivery, unless it is
handled with `SA_NOMASK`. -/
theorem mask_kept_iff {s : Fin 32} {c : Context} {p : SigTask} (h : Delivers s c p)
    (hinst : Installed s p) :
    p.blocked ||| (p.sigaction s).saMask = p.blocked ↔ (p.sigaction s).nomask := by
  obtain ⟨action, oldAction, q, hsa, hret⟩ := hinst
  obtain ⟨sa, hmask⟩ := sigaction_sysSigaction hret
  rw [hsa, hmask, nomask_handledMask]
  by_cases hm : sa.nomask
  · simp [handledMask, hm]
  · simp only [hm, iff_false]
    intro hkept
    have hbit := lowestBit_some h.lowest
    have hlt := s.isLt
    have hclear : p.blocked.getLsbD s = false := by
      simpa [hlt] using (Bool.and_eq_true_iff.mp ((BitVec.getLsbD_and ..).symm.trans hbit)).1
    have hset : (p.blocked ||| (handledMask s sa).saMask).getLsbD s = true := by
      simp [handledMask, hm, sigBit, hlt]
    rw [hkept, hclear] at hset
    cases hset

/-- Everything but the mask comes back. The mask does exactly if the handler ends
with the one that was in force before the delivery; a handler that leaves the mask
alone does so exactly under `SA_NOMASK`. -/
theorem signal_transparent_iff (s : Fin 32) (c c' : Context) (p p' : SigTask)
    (hdel : Delivers s c p) (hinst : Installed s p)
    (hend : HandlerEnds (frameSize (p.sigaction s)) (retFromSyscall false c p).1
      (retFromSyscall false c p).2 c' p') :
    (ret p'.mem c').eip = (p.sigaction s).saRestorer ∧
      (Transparent c p (restorer (p.sigaction s) p'.mem (ret p'.mem c')) p' ↔
        p'.blocked = p.blocked) ∧
      (p'.blocked = (retFromSyscall false c p).2.blocked →
        (Transparent c p (restorer (p.sigaction s) p'.mem (ret p'.mem c')) p' ↔
          (p.sigaction s).nomask)) := by
  rw [retFromSyscall_eq hdel] at hend ⊢
  have hblocked := doSignal_blocked (s := s) (c := c)
    (p := { p with signal := p.signal &&& ~~~(sigBit s) }) hdel.handler hdel.notIgnored
  obtain ⟨hret, hback⟩ := restored_eq (p := { p with signal := p.signal &&& ~~~(sigBit s) })
    hdel.handler hdel.notIgnored hend
  have hiff : Transparent c p (restorer (p.sigaction s) p'.mem (ret p'.mem c')) p' ↔
      p'.blocked = p.blocked := by
    constructor
    · intro ht
      exact ht.blocked
    · intro hb
      simp only at hback
      rw [hback]
      exact ⟨rfl, rfl, rfl, rfl, rfl, rfl, hb⟩
  refine ⟨hret, hiff, fun hsame => ?_⟩
  have hkept := mask_kept_iff hdel hinst
  rw [hiff, hsame, hblocked]
  exact hkept

section Example

/-- User memory with a `struct sigaction` at address 0: handler 0x1000, mask 0,
flags `flags`, restorer 0x2000. -/
def exampleMem (flags : Word) : Memory := putLongs (fun _ => 0) 0 [0x1000, 0, flags, 0x2000]

def freshTask (flags : Word) : SigTask := ⟨0, 0, fun _ => ⟨0, 0, 0, 0⟩, exampleMem flags⟩

def exampleTask (flags : Word) : SigTask :=
  { (sysSigaction 2 0 0 (freshTask flags)).2 with signal := 2 }

def exampleContext : Context := ⟨1, 2, 3, 4, 0x17, 0x17, 0x17, 0x500, 0x0f, 0x202, 0x8000, 0x17⟩

theorem delivers_example (flags : Word) (h : flags = 0 ∨ flags = SA_NOMASK) :
    Delivers 1 exampleContext (exampleTask flags) ∧ Installed 1 (exampleTask flags) := by
  cases h with
  | inl h =>
    subst h
    exact ⟨⟨rfl, rfl, by decide +kernel, by decide +kernel, by decide +kernel⟩,
      0, 0, freshTask 0, rfl, rfl⟩
  | inr h =>
    subst h
    exact ⟨⟨rfl, rfl, by decide +kernel, by decide +kernel, by decide +kernel⟩,
      0, 0, freshTask SA_NOMASK, rfl, rfl⟩

/-- With flags 0, a handler that returns at once: the signal it handled stays
blocked for ever. -/
theorem mask_not_restored :
    Delivers 1 exampleContext (exampleTask 0) ∧ Installed 1 (exampleTask 0) ∧
      (exampleTask 0).blocked = 0 ∧
      (let (c', p') := retFromSyscall false exampleContext (exampleTask 0)
       HandlerEnds (frameSize ((exampleTask 0).sigaction 1)) c' p' c' p' ∧ p'.blocked = 2 ∧
        ¬ Transparent exampleContext (exampleTask 0)
          (restorer ((exampleTask 0).sigaction 1) p'.mem (ret p'.mem c')) p') := by
  obtain ⟨hdel, hinst⟩ := delivers_example 0 (.inl rfl)
  have hblocked : (retFromSyscall false exampleContext (exampleTask 0)).2.blocked = 2 := by
    decide +kernel
  refine ⟨hdel, hinst, rfl, ⟨rfl, fun _ _ => rfl, rfl⟩, hblocked, fun ht => ?_⟩
  have hkept : (retFromSyscall false exampleContext (exampleTask 0)).2.blocked = 0 := ht.blocked
  rw [hblocked] at hkept
  exact absurd hkept (by decide)

theorem signal_transparent_iff_nomask :
    let (c', p') := retFromSyscall false exampleContext (exampleTask SA_NOMASK)
    (ret p'.mem c').eip = 0x2000 ∧
      Transparent exampleContext (exampleTask SA_NOMASK)
        (restorer ((exampleTask SA_NOMASK).sigaction 1) p'.mem (ret p'.mem c')) p' := by
  obtain ⟨hdel, hinst⟩ := delivers_example SA_NOMASK (.inr rfl)
  obtain ⟨hret, hiff, -⟩ := signal_transparent_iff 1 exampleContext
    (retFromSyscall false exampleContext (exampleTask SA_NOMASK)).1 (exampleTask SA_NOMASK)
    (retFromSyscall false exampleContext (exampleTask SA_NOMASK)).2 hdel hinst
    ⟨rfl, fun _ _ => rfl, rfl⟩
  refine ⟨?_, hiff.mpr (by decide +kernel)⟩
  have haddr : ((exampleTask SA_NOMASK).sigaction 1).saRestorer = 0x2000 := by decide +kernel
  rw [← haddr]
  exact hret

end Example

end Hios.Kernel
