import Hios.ChrDrv.Tty

/-! `tty_read` against the queue of typed bytes. Keyboard interrupts and signals come
between any two steps of the reader, also while it sleeps in `sleep_if_empty`. -/
namespace Hios.ChrDrv
open Hios.RingBuffer Hios.Run

/-- Where a process is in `tty_read`: at the top of its loop, at the test of
`sleep_if_empty`, or out of it. -/
inductive ReadPc where
  | loop
  | asleep
  | returned
  deriving DecidableEq

/-- `out` is what `put_fs_byte` has stored at `buf`, so `len` is its length. `queued` are
the bytes in the line buffer that are stored and not read, `due` those that a queue
would have handed out. -/
structure Reading where
  tty : Tty
  signal : BitVec 32
  nr : Int
  out : List Ch
  result : Int
  pc : ReadPc
  queued : List Ch
  due : List Ch

def ttyRead (channel : Nat) (nr : Int) (signal : BitVec 32) (tty : Tty) : Reading :=
  if channel > 2 ∨ nr < 0 then ⟨tty, signal, nr, [], -1, .returned, tty.buffer.contents, []⟩
  else ⟨tty, signal, nr, [], 0, .loop, tty.buffer.contents, []⟩

def Reading.getch (s : Reading) : Reading :=
  let (ch, buffer) := s.tty.buffer.get
  let out := s.out ++ [ch]
  let ends := decide (ch = newline ∨ ch = eof)
  { s with
    tty := { s.tty with buffer }
    nr := s.nr - 1
    out := out
    result := if ends then out.length else s.result
    pc := if ends then .returned else .loop
    queued := s.queued.tail
    due := s.due ++ s.queued.head?.toList }

def sleepIfEmpty (s : Reading) : Reading :=
  if s.signal = 0 ∧ EMPTY s.tty.buffer then s else s.getch

def Reading.go (s : Reading) : Reading :=
  match s.pc with
  | .returned => s
  | .loop =>
    if s.nr ≤ 0 then { s with result := s.out.length, pc := .returned }
    else if EMPTY s.tty.buffer then { s with pc := .asleep } else s.getch
  | .asleep => sleepIfEmpty s

/-- A byte of the keyboard passes through `copy_to_buffer`. When a store makes `head` meet
`tail`, nothing is queued any more. -/
def Reading.copy (s : Reading) : Reading :=
  let c := change s.tty.buffer s.tty.readQ.get.1
  let tty := copyOne s.tty
  { s with tty := tty, queued := if EMPTY tty.buffer then [] else c.spec s.queued }

inductive ReadAct where
  | arrive (ch : Ch)
  | copy
  | signals (signal : BitVec 32)
  | go

def readStep (s : Reading) : ReadAct → Option Reading
  | .arrive ch => some { s with tty := { s.tty with readQ := s.tty.readQ.put ch } }
  | .copy => if EMPTY s.tty.readQ then none else some s.copy
  | .signals signal => some { s with signal := signal }
  | .go => some s.go

/-- The line buffer holds what is queued, and the caller has the oldest of the bytes
queued before, in their order. -/
def Typed (s : Reading) : Prop := s.tty.buffer.contents = s.queued ∧ s.out = s.due

/-- A reader that has found the buffer empty is not let go on with it by a signal. -/
def Waits (s : Reading) : ReadAct → Prop
  | .go => s.pc = .asleep → EMPTY s.tty.buffer → s.signal = 0
  | _ => True

def StopsAtLine (s : Reading) : Prop :=
  (∀ ch ∈ s.out.dropLast, ch ≠ newline ∧ ch ≠ eof) ∧
    (s.pc ≠ .returned → ∀ ch ∈ s.out, ch ≠ newline ∧ ch ≠ eof)

variable {s t : Reading}

theorem copyOne_contents {tty : Tty} (hne : ¬ EMPTY (copyOne tty).buffer) :
    (copyOne tty).buffer.contents = (change tty.buffer tty.readQ.get.1).spec
      tty.buffer.contents := by
  rw [copyOne_buffer] at hne ⊢
  cases hc : change tty.buffer tty.readQ.get.1 with
  | keep => rfl
  | erase => exact Ring.contents_drop (change_erase hc)
  | store ch =>
    rw [hc] at hne
    have hlt := tty.buffer.size_lt
    by_cases hfull : tty.buffer.size + 1 = TTY_BUF_SIZE
    · exact absurd (Ring.contents_eq_nil.mp (Ring.contents_put_full ch hfull)) hne
    · exact Ring.contents_put ch (by omega)

theorem Typed.copy (h : Typed s) : Typed s.copy := by
  obtain ⟨hqueued, hout⟩ := h
  refine ⟨?_, hout⟩
  by_cases he : EMPTY (copyOne s.tty).buffer
  · have hnil : (copyOne s.tty).buffer.contents = [] := Ring.contents_eq_nil.mpr he
    simp [Reading.copy, he, hnil]
  · have hcontents := copyOne_contents he
    simp [Reading.copy, he, hcontents, hqueued]

theorem Typed.getch (h : Typed s) (hne : ¬ EMPTY s.tty.buffer) : Typed s.getch := by
  obtain ⟨hqueued, hout⟩ := h
  have hget := Ring.contents_get hne
  rw [hqueued] at hget
  constructor
  · simp [Reading.getch, hget]
  · simp [Reading.getch, hget, hout]

theorem not_typed_getch (h : Typed s) (he : EMPTY s.tty.buffer) : ¬ Typed s.getch := by
  obtain ⟨hqueued, hout⟩ := h
  have hnil : s.queued = [] := by
    rw [← hqueued]
    exact Ring.contents_eq_nil.mpr he
  intro hbad
  have hlength := congrArg List.length hbad.2
  simp [Reading.getch, hnil, hout] at hlength

theorem typed_go_iff (h : Typed s) : Typed s.go ↔ Waits s .go := by
  cases hpc : s.pc with
  | returned =>
    have hgo : s.go = s := by simp [Reading.go, hpc]
    rw [hgo]
    exact iff_of_true h fun hasleep => by rw [hpc] at hasleep; cases hasleep
  | loop =>
    refine iff_of_true ?_ fun hasleep => by rw [hpc] at hasleep; cases hasleep
    simp only [Reading.go, hpc]
    split
    · exact h
    · split
      · exact h
      · rename_i hne
        exact h.getch hne
  | asleep =>
    simp only [Reading.go, hpc, sleepIfEmpty, Waits, forall_const]
    by_cases he : EMPTY s.tty.buffer
    · by_cases hsignal : s.signal = 0
      · rw [if_pos ⟨hsignal, he⟩]
        exact iff_of_true h fun _ => hsignal
      · rw [if_neg fun hboth => hsignal hboth.1]
        exact iff_of_false (not_typed_getch h he) fun hzero => hsignal (hzero he)
    · rw [if_neg fun hboth => he hboth.2]
      exact iff_of_true (h.getch he) fun hempty => absurd hempty he

theorem typed_step_iff (s : Reading) (a : ReadAct) (t : Reading) (h : Typed s)
    (hst : readStep s a = some t) :
    Typed t ↔ Waits s a := by
  cases a with
  | arrive ch =>
    obtain rfl := Option.some.inj hst
    exact iff_of_true h trivial
  | copy =>
    by_cases he : EMPTY s.tty.readQ
    · simp [readStep, he] at hst
    · simp only [readStep, if_neg he, Option.some.injEq] at hst
      subst hst
      exact iff_of_true h.copy trivial
  | signals signal =>
    obtain rfl := Option.some.inj hst
    exact iff_of_true h trivial
  | go =>
    obtain rfl := Option.some.inj hst
    exact typed_go_iff h

theorem StopsAtLine.getch (h : StopsAtLine s) (hpc : s.pc ≠ .returned) : StopsAtLine s.getch := by
  have hbefore := h.2 hpc
  constructor
  · simpa [Reading.getch] using hbefore
  · intro hgo ch hch
    by_cases hends : s.tty.buffer.get.1 = newline ∨ s.tty.buffer.get.1 = eof
    · simp [Reading.getch, hends] at hgo
    · simp only [Reading.getch, List.mem_append, List.mem_singleton] at hch
      cases hch with
      | inl hch => exact hbefore ch hch
      | inr hch =>
        rw [hch]
        exact not_or.mp hends

theorem StopsAtLine.go (h : StopsAtLine s) : StopsAtLine s.go := by
  cases hpc : s.pc with
  | returned => simpa [Reading.go, hpc] using h
  | loop =>
    have hgo : s.pc ≠ .returned := by simp [hpc]
    simp only [Reading.go, hpc]
    split
    · exact ⟨h.1, fun hret => absurd rfl hret⟩
    · split
      · exact ⟨h.1, fun _ => h.2 hgo⟩
      · exact h.getch hgo
  | asleep =>
    have hgo : s.pc ≠ .returned := by simp [hpc]
    simp only [Reading.go, hpc, sleepIfEmpty]
    split
    · exact h
    · exact h.getch hgo

theorem StopsAtLine.step (s : Reading) (a : ReadAct) (t : Reading) (h : StopsAtLine s)
    (hst : readStep s a = some t) :
    StopsAtLine t := by
  cases a with
  | arrive ch =>
    obtain rfl := Option.some.inj hst
    exact h
  | copy =>
    by_cases he : EMPTY s.tty.readQ
    · simp [readStep, he] at hst
    · simp only [readStep, if_neg he, Option.some.injEq] at hst
      subst hst
      exact h
  | signals signal =>
    obtain rfl := Option.some.inj hst
    exact h
  | go =>
    obtain rfl := Option.some.inj hst
    exact h.go

theorem typed_ttyRead (channel : Nat) (nr : Int) (signal : BitVec 32) (tty : Tty) :
    Typed (ttyRead channel nr signal tty) ∧ StopsAtLine (ttyRead channel nr signal tty) := by
  unfold ttyRead
  split
  · exact ⟨⟨rfl, rfl⟩, by simp [StopsAtLine]⟩
  · exact ⟨⟨rfl, rfl⟩, by simp [StopsAtLine]⟩

/-- `tty_read` hands out the typed bytes in their order, and none besides, exactly as long
as no signal lets it go on with an empty buffer; it always stops with the line. -/
theorem tty_read_typed_iff (channel : Nat) (nr : Int) (signal : BitVec 32) (tty : Tty)
    (acts : List ReadAct) :
    (Always readStep Typed (ttyRead channel nr signal tty) acts ↔
      StepsMeet readStep Waits (ttyRead channel nr signal tty) acts) ∧
    Always readStep StopsAtLine (ttyRead channel nr signal tty) acts := by
  obtain ⟨htyped, hstops⟩ := typed_ttyRead channel nr signal tty
  exact ⟨always_iff_stepsMeet typed_step_iff acts htyped,
    always_of_inv StopsAtLine.step hstops⟩

/-- With a signal pending, a read of one byte from the empty terminal returns a byte that
was never typed, and the buffer seems to hold 1023 more. -/
theorem signalled_read_of_empty_buffer :
    ∃ t, run readStep (ttyRead 0 1 1 bootLine.tty) [.go, .go, .go] = some t ∧ t.pc = .returned ∧
    t.result = 1 ∧
      t.out = [0] ∧ t.due = [] ∧ t.tty.buffer.size = 1023 ∧
      ¬ Always readStep Typed (ttyRead 0 1 1 bootLine.tty) [.go, .go, .go] := by
  refine ⟨_, rfl, rfl, rfl, rfl, rfl, rfl, fun h => ?_⟩
  have hlast := (h.2 _ rfl).2 _ rfl
  have hout : [(0 : Ch)] = [] := hlast.1.2
  cases hout

end Hios.ChrDrv
