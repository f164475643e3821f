import Hios.ChrDrv.Tty
import Mathlib.Data.List.DropRight

/-! A backspace in `copy_to_buffer`, and the lines that are complete in the line buffer. -/
namespace Hios.ChrDrv
open Hios.RingBuffer Hios.Run

def lastIndex (q : Queue) : Nat := (q.head.val + (2 ^ 32 - 1)) % 2 ^ 32

def backspaceReads (q : Queue) : List Nat := if EMPTY q then [] else [lastIndex q]

def erased (l : List Ch) : List Ch := if l.getLast? = some newline then l else l.dropLast

structure BackspaceRight (tty : Tty) : Prop where
  contents : (copyOne tty).buffer.contents = erased tty.buffer.contents
  buf : (copyOne tty).buffer.buf = tty.buffer.buf
  tail : (copyOne tty).buffer.tail = tty.buffer.tail
  inside : ∀ k ∈ backspaceReads tty.buffer, k < TTY_BUF_SIZE

def completed (l : List Ch) : List Ch := l.rdropWhile (· ≠ newline)

def gets : List TtyAct → Nat
  | [] => 0
  | .getch _ :: acts => gets acts + 1
  | _ :: acts => gets acts

def EditsLine (s : Line) (a : TtyAct) : Prop :=
  RoomForLine s a ∧ match a with
  | .copy => s.tty.readQ.get.1 = backspace → EMPTY s.tty.buffer ∨ s.tty.buffer.head ≠ 0
  | _ => True

variable {tty : Tty} {q : Queue} {l : List Ch} {c : Ch} {s t : Line}

theorem lastIndex_inside (h : q.head ≠ 0) : lastIndex q < TTY_BUF_SIZE := by
  have hlt := q.head.isLt
  have hpos : q.head.val ≠ 0 := fun e => h (Fin.ext e)
  simp only [lastIndex, TTY_BUF_SIZE] at *
  omega

theorem lastIndex_outside (h : q.head = 0) : lastIndex q = 2 ^ 32 - 1 := by
  rw [lastIndex, h]
  rfl

theorem change_backspace (h : EMPTY q ∨ q.head ≠ 0) :
    change q backspace = if q.contents = [] ∨ q.contents.getLast? = some newline then .keep
      else .erase := by
  have hempty : EMPTY q ↔ q.contents = [] := Ring.contents_eq_nil.symm
  by_cases he : EMPTY q
  · simp [change, he, hempty.mp he]
  · have hlast := Ring.getLast?_contents he
    have hhead := h.resolve_left he
    have hne : q.contents ≠ [] := fun e => he (hempty.mpr e)
    simp [change, he, hne, hlast, beforeHead, hhead]

theorem erased_nil : erased [] = [] := rfl

theorem backspace_contents (h : EMPTY q ∨ q.head ≠ 0) :
    ((change q backspace).apply q).contents = erased q.contents := by
  rw [change_backspace h]
  by_cases hnil : q.contents = []
  · simp [hnil, erased_nil, Change.apply]
  · by_cases hlast : q.contents.getLast? = some newline
    · simp [hlast, erased, Change.apply]
    · have hne : ¬ EMPTY q := fun e => hnil (Ring.contents_eq_nil.mpr e)
      simp [hnil, hlast, erased, Change.apply, Ring.contents_drop hne]

theorem apply_buf {ch : Change} (h : ∀ c, ch ≠ .store c) :
    (ch.apply q).buf = q.buf ∧ (ch.apply q).tail = q.tail := by
  cases ch with
  | keep => exact ⟨rfl, rfl⟩
  | erase => exact ⟨rfl, rfl⟩
  | store c => exact absurd rfl (h c)

theorem change_backspace_store (q : Queue) (c : Ch) : change q backspace ≠ .store c := by
  unfold change
  rw [if_pos rfl]
  split
  · exact fun e => by cases e
  · exact fun e => by cases e

theorem backspaceRight_iff (h : tty.readQ.get.1 = backspace) :
    BackspaceRight tty ↔ EMPTY tty.buffer ∨ tty.buffer.head ≠ 0 := by
  have hbuffer := copyOne_buffer tty
  rw [h] at hbuffer
  constructor
  · intro hright
    by_cases he : EMPTY tty.buffer
    · exact .inl he
    · refine .inr fun hhead => ?_
      have hin := hright.inside (lastIndex tty.buffer) (by simp [backspaceReads, he])
      rw [lastIndex_outside hhead] at hin
      exact absurd hin (by decide)
  · intro hedit
    obtain ⟨hbuf, htail⟩ := apply_buf (q := tty.buffer) (change_backspace_store tty.buffer)
    rw [← hbuffer] at hbuf htail
    refine ⟨?_, hbuf, htail, fun k hk => ?_⟩
    · rw [hbuffer]
      exact backspace_contents hedit
    · by_cases he : EMPTY tty.buffer
      · simp [backspaceReads, he] at hk
      · rw [backspaceReads, if_neg he, List.mem_singleton] at hk
        rw [hk]
        exact lastIndex_inside (hedit.resolve_left he)

theorem completed_append (l : List Ch) (c : Ch) :
    completed (l ++ [c]) = if c = newline then l ++ [c] else completed l := by
  by_cases hc : c = newline
  · simp [completed, hc]
  · simp [completed, hc]

theorem completed_erased (l : List Ch) : completed (erased l) = completed l := by
  induction l using List.reverseRecOn with
  | nil => rfl
  | append_singleton l c ih =>
    by_cases hc : c = newline
    · simp [erased, hc]
    · simp [erased, hc, completed_append]

theorem completed_tail (c : Ch) (l : List Ch) : (completed (c :: l)).drop 1 = completed l := by
  induction l using List.reverseRecOn with
  | nil =>
    have hone := completed_append [] c
    rw [List.nil_append] at hone
    rw [hone]
    split
    · rfl
    · rfl
  | append_singleton l d ih =>
    have hcons := completed_append (c :: l) d
    rw [List.cons_append] at hcons
    rw [hcons, completed_append]
    split
    · rfl
    · exact ih

theorem completed_prefix_append (l : List Ch) (c : Ch) : completed l <+: completed (l ++ [c]) := by
  rw [completed_append]
  split
  · exact (List.rdropWhile_prefix _ l).trans (List.prefix_append l [c])
  · exact List.prefix_rfl

theorem copy_keeps_lines (hedit : EditsLine s .copy) (hst : ttyStep s .copy = some t) :
    completed s.tty.buffer.contents <+: completed t.tty.buffer.contents := by
  by_cases he : EMPTY s.tty.readQ
  · simp [ttyStep, he] at hst
  simp only [ttyStep, if_neg he, Option.some.injEq] at hst
  subst hst
  simp only [copyOne_buffer]
  by_cases hb : s.tty.readQ.get.1 = backspace
  · rw [hb, backspace_contents (hedit.2 hb), completed_erased]
  · cases hc : change s.tty.buffer s.tty.readQ.get.1 with
    | keep => exact List.prefix_rfl
    | erase =>
      simp only [change, if_neg hb] at hc
      split at hc
      · cases hc
      · split at hc
        · cases hc
        · cases hc
    | store c =>
      obtain ⟨rfl, hline⟩ := change_store hc
      have hfull : ¬ FULL s.tty.buffer := by
        intro hfull
        obtain ⟨hneof, hnline⟩ := hedit.1 hfull
        exact (hline hfull).elim hneof hnline
      have hroom : s.tty.buffer.size + 1 < TTY_BUF_SIZE := by
        have hlt := s.tty.buffer.size_lt
        have hne : s.tty.buffer.size + 1 ≠ TTY_BUF_SIZE := fun e => hfull (full_iff_size.mpr e)
        omega
      rw [Change.apply, Ring.contents_put _ hroom]
      exact completed_prefix_append _ _

/-- So does every step, but for the bytes that readers take off the front. -/
theorem step_keeps_lines {a : TtyAct} (hedit : EditsLine s a) (hst : ttyStep s a = some t) :
    (completed s.tty.buffer.contents).drop (gets [a]) <+: completed t.tty.buffer.contents := by
  cases a with
  | arrive ch =>
    obtain rfl := Option.some.inj hst
    exact List.prefix_rfl
  | copy => exact copy_keeps_lines hedit hst
  | getch signalled =>
    by_cases he : EMPTY s.tty.buffer
    · rw [Ring.contents_eq_nil.mpr he]
      exact List.nil_prefix
    · simp only [ttyStep, if_neg he, Option.some.injEq] at hst
      subst hst
      rw [Ring.contents_get he]
      exact (completed_tail _ _).symm ▸ List.prefix_rfl

theorem gets_cons (a : TtyAct) (acts : List TtyAct) : gets (a :: acts) = gets [a] + gets acts := by
  cases a with
  | arrive ch => simp [gets]
  | copy => simp [gets]
  | getch signalled => simp [gets, Nat.add_comm]

theorem run_keeps_lines (acts : List TtyAct) (hedit : StepsMeet ttyStep EditsLine s acts)
    (hrun : run ttyStep s acts = some t) :
    (completed s.tty.buffer.contents).drop (gets acts) <+: completed t.tty.buffer.contents := by
  induction acts generalizing s with
  | nil =>
    obtain rfl := Option.some.inj hrun
    exact List.prefix_rfl
  | cons a acts ih =>
    obtain ⟨u, hu, ht⟩ := run_cons_some.mp hrun
    obtain ⟨hfirst, hrest⟩ := hedit u hu
    have hstep := step_keeps_lines hfirst hu
    rw [gets_cons, ← List.drop_drop]
    exact (hstep.drop (gets acts)).trans (ih hrest ht)

/-- A backspace takes back the last byte of the current line, and nothing else, exactly
where it finds the buffer empty or `head` not at 0. As long as all do, and no newline
finds the buffer full, the complete lines stay what they are until they are read. -/
theorem backspace_edits_line_iff (tty : Tty) (s t : Line) (acts : List TtyAct) :
    (tty.readQ.get.1 = backspace → (BackspaceRight tty ↔ EMPTY tty.buffer ∨ tty.buffer.head ≠ 0)) ∧
    (run ttyStep s acts = some t → StepsMeet ttyStep EditsLine s acts →
      (completed s.tty.buffer.contents).drop (gets acts) <+: completed t.tty.buffer.contents) :=
  ⟨backspaceRight_iff, fun hrun hedit => run_keeps_lines acts hedit hrun⟩

/-- After 1023 letters, one of them read, and a newline, `head` is at 0 again. -/
theorem run_wrapped :
    ∃ s, run ttyStep bootLine (typed 1023 ++ [.getch false, .arrive newline, .copy]) = some s ∧
    EMPTY s.tty.readQ ∧ s.tty.buffer.head = 0 ∧ s.tty.buffer.contents.getLast? = some newline ∧
    s.tty.buffer.size = 1023 := by
  obtain ⟨r, hrun, hr, hempty, hlen, htail⟩ := run_typed 1023 (by decide)
  have hsize : r.tty.buffer.size = 1023 := by rw [size_of_intact hr, hlen]
  have hne : ¬ EMPTY r.tty.buffer := fun e => by
    rw [Ring.size_eq_zero.mpr e] at hsize
    cases hsize
  have hhead : r.tty.buffer.head = 1023 := by
    rw [Ring.size, htail, sub_zero] at hsize
    exact Fin.ext hsize
  let u : Line := ⟨{ r.tty with buffer := r.tty.buffer.get.2 }, r.unread.tail, r.met⟩
  have hu : ttyStep r (.getch false) = some u := by simp [ttyStep, hne, u]
  have husize : u.tty.buffer.size + 1 = 1023 := by
    rw [← hsize]
    exact Ring.size_get hne
  obtain ⟨s, hs, hbuffer, -, hread, -⟩ := run_type_stored (s := u) hempty (change_line (.inr rfl))
  have hroom : u.tty.buffer.size + 1 < TTY_BUF_SIZE := by
    rw [husize]
    decide
  have hcontents := Ring.contents_put newline hroom
  rw [← hbuffer] at hcontents
  refine ⟨s, ?_, hread, ?_, ?_, ?_⟩
  · rw [run_append, hrun]
    exact run_cons_some.mpr ⟨u, hu, hs⟩
  · rw [hbuffer]
    exact congrArg (· + 1) hhead
  · rw [hcontents, List.getLast?_concat]
  · rw [← Ring.length_contents, hcontents, List.length_append, Ring.length_contents]
    exact husize

/-- A backspace there looks in front of the ring and takes the newline back: the line
that was complete no longer is. -/
theorem newline_taken_back : ∃ s t,
    run ttyStep bootLine (typed 1023 ++ [.getch false, .arrive newline, .copy]) = some s ∧
    run ttyStep s [.arrive backspace, .copy] = some t ∧
    s.tty.buffer.contents.getLast? = some newline ∧
    backspaceReads s.tty.buffer = [2 ^ 32 - 1] ∧
    t.tty.buffer.contents = s.tty.buffer.contents.dropLast ∧
    ¬ completed s.tty.buffer.contents <+: completed t.tty.buffer.contents := by
  obtain ⟨s, hrun, hempty, hhead, hlast, hsize⟩ := run_wrapped
  obtain ⟨t, ht, hbuffer, -, -, -⟩ := run_type backspace hempty
  have hne : ¬ EMPTY s.tty.buffer := fun e => by
    rw [Ring.size_eq_zero.mpr e] at hsize
    cases hsize
  have herase : change s.tty.buffer backspace = .erase := by
    have hbefore : beforeHead s.tty.buffer = 0 := if_pos hhead
    have hline : ¬ (EMPTY s.tty.buffer ∨ beforeHead s.tty.buffer = newline) := by
      rw [hbefore]
      exact not_or.mpr ⟨hne, by decide⟩
    rw [change, if_pos rfl, if_neg hline]
  have hcontents : t.tty.buffer.contents = s.tty.buffer.contents.dropLast := by
    rw [hbuffer, herase]
    exact Ring.contents_drop hne
  refine ⟨s, t, hrun, ht, hlast, ?_, hcontents, fun hkept => ?_⟩
  · rw [backspaceReads, if_neg hne, lastIndex_outside hhead]
  · obtain ⟨l, hl⟩ := List.getLast?_eq_some_iff.mp hlast
    have hwhole : completed s.tty.buffer.contents = s.tty.buffer.contents := by
      rw [hl, completed_append, if_pos rfl]
    have hle := (hkept.trans (List.rdropWhile_prefix _ t.tty.buffer.contents)).length_le
    rw [hwhole, hcontents, List.length_dropLast, Ring.length_contents, hsize] at hle
    omega

end Hios.ChrDrv
