import Hios.Lib.RingBuffer
import Hios.Lib.Run

/-! The terminal queues of `kernel/chr_drv/tty_io.c`: keyboard bytes go through
`copy_to_buffer` into the line buffer that `tty_read` empties. -/
namespace Hios.ChrDrv
open Hios.RingBuffer Hios.Run

abbrev Ch := BitVec 8

def TTY_BUF_SIZE : Nat := 1024

instance : NeZero TTY_BUF_SIZE := ⟨by decide⟩

def TTY_ECHO : Nat := 1

/-- `struct tty_queue`: `INC` and `DEC` are arithmetic modulo `TTY_BUF_SIZE`. -/
abbrev Queue := Ring Ch TTY_BUF_SIZE

structure Tty where
  flags : Nat
  readQ : Queue
  writeQ : Queue
  buffer : Queue

def backspace : Ch := 8
def newline : Ch := 10
def eof : Ch := -1

def EMPTY (q : Queue) : Prop := q.head = q.tail

def LEFT (q : Queue) : Nat := (q.tail - q.head - 1).val

def FULL (q : Queue) : Prop := LEFT q = 0

instance (q : Queue) : Decidable (EMPTY q) := inferInstanceAs (Decidable (_ = _))
instance (q : Queue) : Decidable (FULL q) := inferInstanceAs (Decidable (_ = _))

/-- `buf[head - 1]`. At `head` 0 that is the byte in front of `buf`, the top byte
of `write_q.tail`, which is 0. -/
def beforeHead (q : Queue) : Ch := if q.head = 0 then 0 else q.buf (q.head - 1)

def conWrite (tty : Tty) : Tty := { tty with writeQ := { tty.writeQ with tail := tty.writeQ.head } }

/-- The test is `flags | TTY_ECHO`, which always holds. -/
def echo (ch : Ch) (tty : Tty) : Tty :=
  if tty.flags ||| TTY_ECHO ≠ 0 then conWrite { tty with writeQ := tty.writeQ.put ch } else tty

/-- One turn of the loop in `copy_to_buffer`. -/
def copyOne (tty : Tty) : Tty :=
  let (ch, readQ) := tty.readQ.get
  let tty := { tty with readQ }
  if ch = backspace then
    if EMPTY tty.buffer then tty
    else if beforeHead tty.buffer = newline then tty
    else echo ch { tty with buffer := tty.buffer.drop }
  else if ch = eof ∨ ch = newline then echo ch { tty with buffer := tty.buffer.put ch }
  else if FULL tty.buffer then echo ch tty
  else echo ch { tty with buffer := tty.buffer.put ch }

def copyLoop : Nat → Tty → Tty
  | 0, tty => tty
  | fuel + 1, tty => if EMPTY tty.readQ then tty else copyLoop fuel (copyOne tty)

def copyToBuffer (tty : Tty) : Tty := copyLoop tty.readQ.size tty

inductive Change where
  | keep
  | erase
  | store (ch : Ch)
  deriving DecidableEq

def change (buffer : Queue) (ch : Ch) : Change :=
  if ch = backspace then
    if EMPTY buffer ∨ beforeHead buffer = newline then .keep else .erase
  else if ch = eof ∨ ch = newline then .store ch
  else if FULL buffer then .keep else .store ch

def Change.apply : Change → Queue → Queue
  | .keep, q => q
  | .erase, q => q.drop
  | .store ch, q => q.put ch

@[simp] theorem echo_buffer (ch : Ch) (tty : Tty) : (echo ch tty).buffer = tty.buffer := by
  unfold echo
  split
  · rfl
  · rfl

@[simp] theorem echo_readQ (ch : Ch) (tty : Tty) : (echo ch tty).readQ = tty.readQ := by
  unfold echo
  split
  · rfl
  · rfl

theorem copyOne_buffer (tty : Tty) :
    (copyOne tty).buffer = (change tty.buffer tty.readQ.get.1).apply tty.buffer := by
  simp only [copyOne, change]
  by_cases hb : tty.readQ.get.1 = backspace
  · by_cases he : EMPTY tty.buffer
    · simp [hb, he, Change.apply]
    · by_cases hn : beforeHead tty.buffer = newline
      · simp [hb, he, hn, Change.apply]
      · simp [hb, he, hn, Change.apply]
  · by_cases hl : tty.readQ.get.1 = eof ∨ tty.readQ.get.1 = newline
    · simp [hb, hl, Change.apply]
    · by_cases hf : FULL tty.buffer
      · simp [hb, hl, hf, Change.apply]
      · simp [hb, hl, hf, Change.apply]

theorem copyOne_readQ (tty : Tty) : (copyOne tty).readQ = tty.readQ.get.2 := by
  simp only [copyOne]
  by_cases hb : tty.readQ.get.1 = backspace
  · by_cases he : EMPTY tty.buffer
    · simp [hb, he]
    · by_cases hn : beforeHead tty.buffer = newline
      · simp [hb, he, hn]
      · simp [hb, he, hn]
  · by_cases hl : tty.readQ.get.1 = eof ∨ tty.readQ.get.1 = newline
    · simp [hb, hl]
    · by_cases hf : FULL tty.buffer
      · simp [hb, hl, hf]
      · simp [hb, hl, hf]

theorem full_iff_size {q : Queue} : FULL q ↔ q.size + 1 = TTY_BUF_SIZE := by
  have hsum : (q.head - q.tail) + (q.tail - q.head - 1) + 1 = 0 := by abel
  have hsize := q.size_lt
  simp only [FULL, LEFT, Ring.size] at hsize ⊢
  constructor
  · intro h
    rw [Fin.val_eq_zero_iff.mp h, add_zero] at hsum
    have hval := val_add_one (q.head - q.tail)
    rw [hsum] at hval
    have hdvd : TTY_BUF_SIZE ∣ (q.head - q.tail).val + 1 := Nat.dvd_of_mod_eq_zero hval.symm
    have hle := Nat.le_of_dvd (Nat.succ_pos _) hdvd
    omega
  · intro h
    have hz : q.head - q.tail + 1 = 0 := by
      apply Fin.ext
      rw [val_add_one, h]
      exact Nat.mod_self TTY_BUF_SIZE
    have hleft : q.tail - q.head - 1 = 0 := by
      have hneg : q.tail - q.head - 1 = -(q.head - q.tail + 1) := by abel
      rw [hneg, hz, neg_zero]
    rw [hleft]
    rfl

/-- The terminal, the bytes that should be unread, and whether a store has made
`head` meet `tail`. -/
structure Line where
  tty : Tty
  unread : List Ch
  met : Bool

/-- Keyboard bytes arrive and pass one by one through `copy_to_buffer`. A reader
takes a byte; on an empty buffer it sleeps unless a signal is pending. -/
inductive TtyAct where
  | arrive (ch : Ch)
  | copy
  | getch (signalled : Bool)

def Change.spec : Change → List Ch → List Ch
  | .keep, l => l
  | .erase, l => l.dropLast
  | .store ch, l => l ++ [ch]

def ttyStep (s : Line) : TtyAct → Option Line
  | .arrive ch => some { s with tty := { s.tty with readQ := s.tty.readQ.put ch } }
  | .copy =>
    if EMPTY s.tty.readQ then none
    else
      let c := change s.tty.buffer s.tty.readQ.get.1
      let tty := copyOne s.tty
      some ⟨tty, c.spec s.unread, s.met || (c ≠ .erase ∧ c ≠ .keep ∧ EMPTY tty.buffer)⟩
  | .getch signalled =>
    let buffer := s.tty.buffer.get.2
    let tty := { s.tty with buffer }
    if EMPTY s.tty.buffer then
      -- the signalled reader's GETCH moves `tail` past `head`: the old bytes count as unread
      if signalled then some { s with tty, unread := buffer.contents } else none
    else some { s with tty, unread := s.unread.tail }

/-- No store has made `head` meet `tail`, and the buffer holds the bytes that
arrived, less those read or erased. -/
def Intact (s : Line) : Prop := s.met = false ∧ s.tty.buffer.contents = s.unread

def RoomForLine (s : Line) (a : TtyAct) : Prop :=
  match a with
  | .copy => FULL s.tty.buffer → s.tty.readQ.get.1 ≠ eof ∧ s.tty.readQ.get.1 ≠ newline
  | _ => True

theorem change_store {q : Queue} {ch c : Ch} (h : change q ch = .store c) :
    c = ch ∧ (FULL q → ch = eof ∨ ch = newline) := by
  unfold change at h
  split at h
  · split at h
    · cases h
    · cases h
  · split at h
    · rename_i hl
      cases h
      exact ⟨rfl, fun _ => hl⟩
    · split at h
      · cases h
      · rename_i hf
        cases h
        exact ⟨rfl, fun hfull => absurd hfull hf⟩

theorem change_line {q : Queue} {ch : Ch} (h : ch = eof ∨ ch = newline) :
    change q ch = .store ch := by
  have hb : ch ≠ backspace := by
    cases h with
    | inl h =>
      rw [h]
      decide
    | inr h =>
      rw [h]
      decide
  simp [change, hb, h]

theorem change_erase {q : Queue} {ch : Ch} (h : change q ch = .erase) : ¬ EMPTY q := by
  unfold change at h
  split at h
  · split at h
    · cases h
    · rename_i hne
      exact fun he => hne (.inl he)
  · split at h
    · cases h
    · split at h
      · cases h
      · cases h

theorem intact_copy_iff {s t : Line} (hs : Intact s) (h : ttyStep s .copy = some t) :
    Intact t ↔ RoomForLine s .copy := by
  obtain ⟨hmet, hunread⟩ := hs
  by_cases he : EMPTY s.tty.readQ
  · simp [ttyStep, he] at h
  · simp only [ttyStep, if_neg he, Option.some.injEq] at h
    subst h
    simp only [Intact, RoomForLine, hmet, Bool.false_or, copyOne_buffer, ← hunread]
    cases hc : change s.tty.buffer s.tty.readQ.get.1 with
    | keep =>
      simp only [Change.apply, Change.spec, ne_eq, not_true_eq_false, false_and, and_false,
        decide_false, true_and, true_iff]
      intro _
      have hline : ¬ (s.tty.readQ.get.1 = eof ∨ s.tty.readQ.get.1 = newline) := by
        intro hl
        rw [change_line hl] at hc
        cases hc
      exact not_or.mp hline
    | erase =>
      simp only [Change.apply, Change.spec, ne_eq, not_true_eq_false, false_and, decide_false,
        true_and, Ring.contents_drop (change_erase hc), true_iff]
      intro _
      have hline : ¬ (s.tty.readQ.get.1 = eof ∨ s.tty.readQ.get.1 = newline) := by
        intro hl
        rw [change_line hl] at hc
        cases hc
      exact not_or.mp hline
    | store c =>
      obtain ⟨rfl, hline⟩ := change_store hc
      by_cases hf : FULL s.tty.buffer
      · have hnil := Ring.contents_put_full s.tty.readQ.get.1 (full_iff_size.mp hf)
        simp only [Change.apply, Change.spec, hnil, hf]
        constructor
        · rintro ⟨_, hcon⟩
          simp at hcon
        · intro hno
          cases hline hf with
          | inl h => exact absurd h (hno trivial).1
          | inr h => exact absurd h (hno trivial).2
      · have hroom : s.tty.buffer.size + 1 < TTY_BUF_SIZE := by
          have hlt := s.tty.buffer.size_lt
          have hne : s.tty.buffer.size + 1 ≠ TTY_BUF_SIZE := fun h => hf (full_iff_size.mpr h)
          omega
        have hput := Ring.contents_put s.tty.readQ.get.1 hroom
        have hmeet : ¬ EMPTY (s.tty.buffer.put s.tty.readQ.get.1) := by
          intro hempty
          have hnil := Ring.contents_eq_nil.mpr hempty
          rw [hput] at hnil
          simp at hnil
        simp [Change.apply, Change.spec, hput, hf, hmeet]

theorem intact_step_iff (s : Line) (a : TtyAct) (t : Line) (hs : Intact s)
    (h : ttyStep s a = some t) : Intact t ↔ RoomForLine s a := by
  cases a with
  | arrive ch =>
    simp only [ttyStep, Option.some.injEq] at h
    subst h
    simpa [RoomForLine, Intact] using hs
  | copy => exact intact_copy_iff hs h
  | getch signalled =>
    by_cases he : EMPTY s.tty.buffer
    · cases signalled with
      | false => simp [ttyStep, he] at h
      | true =>
        simp only [ttyStep, if_pos he, if_true, Option.some.injEq] at h
        subst h
        simpa [RoomForLine, Intact] using hs.1
    · simp only [ttyStep, if_neg he, Option.some.injEq] at h
      subst h
      have hget := Ring.contents_get he
      rw [hs.2] at hget
      simp [RoomForLine, Intact, hs.1, hget]

/-- Whatever the order of keyboard and readers: the line buffer stays intact
exactly as long as no newline or end of file finds it full. -/
theorem line_buffer_intact_iff (s : Line) (acts : List TtyAct) (hs : Intact s) :
    Always ttyStep Intact s acts ↔ StepsMeet ttyStep RoomForLine s acts :=
  always_iff_stepsMeet intact_step_iff acts hs

def bootLine : Line :=
  let q : Queue := ⟨fun _ => 0, 0, 0⟩
  ⟨⟨TTY_ECHO, q, q, q⟩, [], false⟩

theorem intact_bootLine : Intact bootLine := ⟨rfl, rfl⟩

theorem line_buffer_intact_iff_letter :
    Always ttyStep Intact bootLine [.arrive 97, .copy] ↔
      StepsMeet ttyStep RoomForLine bootLine [.arrive 97, .copy] :=
  line_buffer_intact_iff bootLine [.arrive 97, .copy] intact_bootLine

def typed : Nat → List TtyAct
  | 0 => []
  | n + 1 => typed n ++ [.arrive 97, .copy]

theorem size_of_intact {s : Line} (hs : Intact s) : s.tty.buffer.size = s.unread.length := by
  rw [← hs.2, Ring.length_contents]

theorem add_one_ne (a : Fin TTY_BUF_SIZE) : a + 1 ≠ a := by
  intro h
  have hone : (1 : Fin TTY_BUF_SIZE) = 0 := by
    have hsub : (1 : Fin TTY_BUF_SIZE) = a + 1 - a := by abel
    rw [hsub, h, sub_self]
  exact absurd hone (by decide)

theorem run_type {s : Line} (ch : Ch) (hempty : EMPTY s.tty.readQ) :
    ∃ t, run ttyStep s [.arrive ch, .copy] = some t ∧
      t.tty.buffer = (change s.tty.buffer ch).apply s.tty.buffer ∧
      t.unread = (change s.tty.buffer ch).spec s.unread ∧ EMPTY t.tty.readQ ∧
      t.met = (s.met || (change s.tty.buffer ch ≠ .erase ∧ change s.tty.buffer ch ≠ .keep ∧
        EMPTY t.tty.buffer)) := by
  have htail : s.tty.readQ.tail = s.tty.readQ.head := hempty.symm
  have hget : (s.tty.readQ.put ch).get.1 = ch := by simp [Ring.put, Ring.get, htail]
  have hne : ¬ EMPTY (s.tty.readQ.put ch) := by
    simp only [EMPTY, Ring.put, htail]
    exact add_one_ne s.tty.readQ.head
  obtain ⟨u, hu, hbuffer, hread, hunread, hmet⟩ : ∃ u, ttyStep s (.arrive ch) = some u ∧
      u.tty.buffer = s.tty.buffer ∧ u.tty.readQ = s.tty.readQ.put ch ∧ u.unread = s.unread ∧
      u.met = s.met := ⟨_, rfl, rfl, rfl, rfl, rfl⟩
  rw [← hread] at hget hne
  obtain ⟨t, ht⟩ : ∃ t, ttyStep u .copy = some t := by
    simp only [ttyStep, if_neg hne]
    exact ⟨_, rfl⟩
  refine ⟨t, run_cons_some.mpr ⟨u, hu, run_cons_some.mpr ⟨t, ht, rfl⟩⟩, ?_⟩
  simp only [ttyStep, if_neg hne, Option.some.injEq, hget, hbuffer] at ht
  have hcopy : (copyOne u.tty).buffer = (change s.tty.buffer ch).apply s.tty.buffer := by
    rw [copyOne_buffer, hget, hbuffer]
  have hrest : EMPTY (copyOne u.tty).readQ := by
    rw [copyOne_readQ, hread]
    simp [EMPTY, Ring.get, Ring.put, htail]
  rw [← ht]
  exact ⟨hcopy, by rw [hunread], hrest, by rw [hmet]⟩

theorem run_type_stored {s : Line} {ch : Ch} (hempty : EMPTY s.tty.readQ)
    (hstore : change s.tty.buffer ch = .store ch) :
    ∃ t, run ttyStep s [.arrive ch, .copy] = some t ∧ t.tty.buffer = s.tty.buffer.put ch ∧
      t.unread = s.unread ++ [ch] ∧ EMPTY t.tty.readQ ∧
      t.met = (s.met || EMPTY (s.tty.buffer.put ch)) := by
  obtain ⟨t, hrun, hbuffer, hunread, hread, hmet⟩ := run_type ch hempty
  rw [hstore] at hbuffer hunread hmet
  refine ⟨t, hrun, hbuffer, hunread, hread, ?_⟩
  rw [hmet, hbuffer]
  simp [Change.apply]

theorem run_typed (n : Nat) (hn : n ≤ 1023) :
    ∃ s, run ttyStep bootLine (typed n) = some s ∧ Intact s ∧ EMPTY s.tty.readQ ∧
      s.unread.length = n ∧ s.tty.buffer.tail = 0 := by
  induction n with
  | zero => exact ⟨bootLine, rfl, intact_bootLine, rfl, rfl, rfl⟩
  | succ n ih =>
    obtain ⟨s, hrun, hs, hempty, hlen, htail⟩ := ih (by omega)
    have hroom : s.tty.buffer.size + 1 < TTY_BUF_SIZE := by
      rw [size_of_intact hs, hlen]
      simp only [TTY_BUF_SIZE]
      omega
    have hfull : ¬ FULL s.tty.buffer := fun h => by
      have := full_iff_size.mp h
      omega
    have hstore : change s.tty.buffer 97 = .store 97 := by
      simp [change, hfull, backspace, eof, newline]
    obtain ⟨t, ht, hbuffer, hunread, hread, hmet⟩ := run_type_stored hempty hstore
    have hput := Ring.contents_put 97 hroom
    have hmeet : ¬ EMPTY (s.tty.buffer.put 97) := by
      intro he
      rw [Ring.contents_eq_nil.mpr he] at hput
      simp at hput
    refine ⟨t, ?_, ⟨?_, ?_⟩, hread, ?_, ?_⟩
    · rw [typed, run_append, hrun]
      exact ht
    · rw [hmet, hs.1, decide_eq_false hmeet]
      rfl
    · rw [hbuffer, hput, hs.2, hunread]
    · simp [hunread, hlen]
    · rw [hbuffer]
      exact htail

/-- With 1023 letters unread, a newline makes `head` meet `tail` and all 1024
bytes are lost. -/
theorem newline_empties_full_buffer :
    ∃ s t, run ttyStep bootLine (typed 1023) = some s ∧ Intact s ∧ s.unread.length = 1023 ∧
      run ttyStep s [.arrive newline, .copy] = some t ∧ t.met = true ∧
      t.tty.buffer.contents = [] ∧ t.unread.length = 1024 := by
  obtain ⟨s, hrun, hs, hempty, hlen, -⟩ := run_typed 1023 (by decide)
  have hfull : s.tty.buffer.size + 1 = TTY_BUF_SIZE := by
    rw [size_of_intact hs, hlen]
    rfl
  have hnil := Ring.contents_put_full newline hfull
  obtain ⟨t, ht, hbuffer, hunread, -, hmet⟩ := run_type_stored hempty (change_line (.inr rfl))
  refine ⟨s, t, hrun, hs, hlen, ht, ?_, ?_, ?_⟩
  · have hmeet : EMPTY (s.tty.buffer.put newline) := Ring.contents_eq_nil.mp hnil
    rw [hmet, decide_eq_true hmeet, Bool.or_true]
  · rw [hbuffer, hnil]
  · simp [hunread, hlen]

/-- `copy_to_buffer` is the run of as many `copy` steps as there are bytes in
`read_q`. -/
theorem copyLoop_run (n : Nat) (s : Line) (hn : s.tty.readQ.size = n) :
    ∃ t, run ttyStep s (List.replicate n .copy) = some t ∧ t.tty = copyLoop n s.tty := by
  induction n generalizing s with
  | zero => exact ⟨s, rfl, rfl⟩
  | succ n ih =>
    have he : ¬ EMPTY s.tty.readQ := by
      intro he
      rw [Ring.size_eq_zero.mpr he] at hn
      omega
    obtain ⟨u, hu⟩ : ∃ u, ttyStep s .copy = some u := by
      simp only [ttyStep, if_neg he]
      exact ⟨_, rfl⟩
    have htty : u.tty = copyOne s.tty := by
      simp only [ttyStep, if_neg he, Option.some.injEq] at hu
      rw [← hu]
    have hsize : u.tty.readQ.size = n := by
      have hget := Ring.size_get he
      rw [htty, copyOne_readQ]
      omega
    obtain ⟨t, ht, hlast⟩ := ih u hsize
    refine ⟨t, ?_, ?_⟩
    · rw [List.replicate_succ, run_cons_some]
      exact ⟨u, hu, ht⟩
    · rw [hlast, htty, copyLoop, if_neg he]

end Hios.ChrDrv
