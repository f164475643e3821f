import Hios.ChrDrv.Tty

/-! What `copy_to_buffer` echoes, against the bytes that change the line buffer. -/
namespace Hios.ChrDrv
open Hios.RingBuffer

/-- The echo, with what `con_write` takes off `write_q` behind the bytes that were waiting there. -/
def echoSent (ch : Ch) (tty : Tty) : List Ch × Tty :=
  if tty.flags ||| TTY_ECHO ≠ 0 then
    let queued := { tty with writeQ := tty.writeQ.put ch }
    (queued.writeQ.contents.drop tty.writeQ.size, conWrite queued)
  else ([], tty)

/-- One turn of the loop in `copy_to_buffer`, with the bytes that it sends. -/
def copyOneSent (tty : Tty) : List Ch × Tty :=
  let (ch, readQ) := tty.readQ.get
  let tty := { tty with readQ }
  if ch = backspace then
    if EMPTY tty.buffer then ([], tty)
    else if beforeHead tty.buffer = newline then ([], tty)
    else echoSent ch { tty with buffer := tty.buffer.drop }
  else if ch = eof ∨ ch = newline then echoSent ch { tty with buffer := tty.buffer.put ch }
  else if FULL tty.buffer then echoSent ch tty
  else echoSent ch { tty with buffer := tty.buffer.put ch }

def copyLoopSent : Nat → Tty → List Ch × Tty
  | 0, tty => ([], tty)
  | fuel + 1, tty =>
    if EMPTY tty.readQ then ([], tty)
    else
      let (sent, tty) := copyOneSent tty
      let (rest, tty) := copyLoopSent fuel tty
      (sent ++ rest, tty)

def copyToBufferSent (tty : Tty) : List Ch × Tty := copyLoopSent tty.readQ.size tty

/-- `copy_to_buffer` again and again, each time with what the keyboard has put into `read_q`. -/
def copyCalls : List Queue → Tty → List Ch × Tty
  | [], tty => ([], tty)
  | readQ :: calls, tty =>
    let (sent, tty) := copyToBufferSent { tty with readQ }
    let (rest, tty) := copyCalls calls tty
    (sent ++ rest, tty)

def lineAfter (buffer : Queue) (input : List Ch) : Queue :=
  input.foldl (fun q ch => (change q ch).apply q) buffer

def changing : Queue → List Ch → List Ch
  | _, [] => []
  | q, ch :: input =>
    (if change q ch = .keep then [] else [ch]) ++ changing ((change q ch).apply q) input

def accepted : Queue → List Ch → List Ch
  | _, [] => []
  | q, ch :: input =>
    (if ch = backspace ∧ change q ch = .keep then [] else [ch]) ++ accepted
      ((change q ch).apply q) input

def NoneDropped : Queue → List Ch → Prop
  | _, [] => True
  | q, ch :: input =>
    (FULL q → ch = backspace ∨ ch = eof ∨ ch = newline) ∧ NoneDropped ((change q ch).apply q) input

def NothingTyped (q : Queue) (input : List Ch) : Prop :=
  ∀ ch ∈ input, ch = backspace ∧ (EMPTY q ∨ beforeHead q = newline)

/-- From here on the accepted bytes are `c` up to one that finds the line buffer full,
and no later one does. -/
def RepeatsUntilDropped (c : Ch) : Queue → List Ch → Prop
  | _, [] => False
  | q, ch :: input =>
    if ch = backspace ∧ change q ch = .keep then RepeatsUntilDropped c q input
    else if change q ch = .keep then ch = c ∧ NoneDropped q input
    else ch = c ∧ RepeatsUntilDropped c ((change q ch).apply q) input

/-- The echo of the first accepted byte may be lost: either it is the only one that the line
buffer drops, or the bytes after it repeat it until one is dropped. -/
def FirstMayBeLost : Queue → List Ch → Prop
  | _, [] => True
  | q, ch :: input =>
    if ch = backspace ∧ change q ch = .keep then FirstMayBeLost q input
    else if change q ch = .keep then NoneDropped q input
    else RepeatsUntilDropped ch ((change q ch).apply q) input

def OneTyped : Queue → List Ch → Prop
  | _, [] => True
  | q, ch :: input =>
    if ch = backspace ∧ change q ch = .keep then OneTyped q input
    else NothingTyped ((change q ch).apply q) input

def lossOf (tty : Tty) : Nat := if FULL tty.writeQ then 1 else 0

def Echoes (tty : Tty) : Prop := tty.flags &&& TTY_ECHO ≠ 0

instance (tty : Tty) : Decidable (Echoes tty) := inferInstanceAs (Decidable (_ ≠ _))

variable {q : Queue} {ch : Ch} {tty : Tty}

/-- `PUTCH` into a full `write_q` makes `head` meet `tail`, so that `con_write` finds nothing. -/
theorem echoSent_eq (ch : Ch) (tty : Tty) :
    echoSent ch tty = ([ch].drop (lossOf tty), echo ch tty) := by
  have hbit : tty.flags ||| TTY_ECHO ≠ 0 := fun h => absurd (Nat.or_eq_zero_iff.mp h).2 (by decide)
  rw [echoSent, echo, if_pos hbit, if_pos hbit]
  refine Prod.ext ?_ rfl
  by_cases hfull : FULL tty.writeQ
  · have hmeet := Ring.contents_put_full ch (full_iff_size.mp hfull)
    simp [lossOf, hfull, hmeet]
  · have hroom : tty.writeQ.size + 1 < TTY_BUF_SIZE := by
      have hlt := tty.writeQ.size_lt
      have hne := mt full_iff_size.mpr hfull
      omega
    have hput := Ring.contents_put ch hroom
    simp [lossOf, hfull, hput, ← Ring.length_contents]

theorem lossOf_le (tty : Tty) : lossOf tty ≤ 1 := by
  rw [lossOf]
  split
  · exact le_rfl
  · exact Nat.zero_le 1

theorem lossOf_echo (ch : Ch) (tty : Tty) : lossOf (echo ch tty) = 0 := by
  have hbit : tty.flags ||| TTY_ECHO ≠ 0 := fun h => absurd (Nat.or_eq_zero_iff.mp h).2 (by decide)
  have hempty : (echo ch tty).writeQ.size = 0 := by
    rw [echo, if_pos hbit]
    exact Ring.size_eq_zero.mpr rfl
  have hfull : ¬ FULL (echo ch tty).writeQ := by
    rw [full_iff_size, hempty]
    decide
  rw [lossOf, if_neg hfull]

theorem change_keep_iff :
    change q ch = .keep ↔ (ch = backspace ∧ (EMPTY q ∨ beforeHead q = newline)) ∨
      (FULL q ∧ ch ≠ backspace ∧ ch ≠ eof ∧ ch ≠ newline) := by
  unfold change
  by_cases hb : ch = backspace
  · by_cases hk : EMPTY q ∨ beforeHead q = newline
    · simp [hb, hk]
    · simp [hb, hk]
  · by_cases hl : ch = eof ∨ ch = newline
    · simp [hb, hl]
      tauto
    · by_cases hf : FULL q
      · simp [hb, hl, hf]
        tauto
      · simp [hb, hl, hf]

/-- A byte that is kept out is the one case that leaves the line buffer as it is. -/
theorem apply_change_eq_iff : (change q ch).apply q = q ↔ change q ch = .keep := by
  cases change q ch with
  | keep => simp [Change.apply]
  | erase =>
    have hne : q.drop ≠ q := by
      intro h
      have hhead : q.head - 1 = q.head := congrArg Ring.head h
      exact add_one_ne q.head (sub_eq_iff_eq_add.mp hhead).symm
    simpa [Change.apply] using hne
  | store c =>
    have hne : q.put c ≠ q := fun h => add_one_ne q.head (congrArg Ring.head h)
    simpa [Change.apply] using hne

theorem copyOneSent_eq (tty : Tty) :
    copyOneSent tty =
      ((if tty.readQ.get.1 = backspace ∧ change tty.buffer tty.readQ.get.1 = .keep then []
        else [tty.readQ.get.1].drop (lossOf tty)), copyOne tty) := by
  simp only [copyOneSent, copyOne, echoSent_eq]
  by_cases hb : tty.readQ.get.1 = backspace
  · by_cases he : EMPTY tty.buffer
    · simp [hb, he, change]
    · by_cases hn : beforeHead tty.buffer = newline
      · simp [hb, he, hn, change]
      · simp [hb, he, hn, change, lossOf]
  · by_cases hl : tty.readQ.get.1 = eof ∨ tty.readQ.get.1 = newline
    · simp [hb, hl, lossOf]
    · by_cases hf : FULL tty.buffer
      · simp [hb, hl, hf, lossOf]
      · simp [hb, hl, hf, lossOf]

theorem lossOf_copyOne (tty : Tty) :
    lossOf (copyOne tty) =
      if tty.readQ.get.1 = backspace ∧ change tty.buffer tty.readQ.get.1 = .keep then lossOf tty
        else 0 := by
  simp only [copyOne]
  by_cases hb : tty.readQ.get.1 = backspace
  · by_cases he : EMPTY tty.buffer
    · simp [hb, he, change, lossOf]
    · by_cases hn : beforeHead tty.buffer = newline
      · simp [hb, he, hn, change, lossOf]
      · simp [hb, he, hn, change, lossOf_echo]
  · by_cases hl : tty.readQ.get.1 = eof ∨ tty.readQ.get.1 = newline
    · simp [hb, hl, lossOf_echo]
    · by_cases hf : FULL tty.buffer
      · simp [hb, hl, hf, lossOf_echo]
      · simp [hb, hl, hf, lossOf_echo]

def lossAfter (loss : Nat) (q : Queue) (input : List Ch) : Nat :=
  if accepted q input = [] then loss else 0

structure Sends (tty tty' : Tty) (sent : List Ch) (input : List Ch) : Prop where
  sent : sent = (accepted tty.buffer input).drop (lossOf tty)
  line : tty'.buffer = lineAfter tty.buffer input
  loss : lossOf tty' = lossAfter (lossOf tty) tty.buffer input

theorem copyLoopSent_eq (n : Nat) (tty : Tty) (hn : tty.readQ.size = n) :
    Sends tty (copyLoopSent n tty).2 (copyLoopSent n tty).1 tty.readQ.contents := by
  induction n generalizing tty with
  | zero =>
    rw [Ring.contents_eq_nil.mpr (Ring.size_eq_zero.mp hn)]
    exact ⟨List.drop_nil.symm, rfl, rfl⟩
  | succ n ih =>
    have hne : ¬ EMPTY tty.readQ := by
      intro he
      rw [Ring.size_eq_zero.mpr he] at hn
      cases hn
    have hsize := Ring.size_get hne
    obtain ⟨hsent, hline, hloss⟩ := ih (copyOne tty) (by rw [copyOne_readQ]; omega)
    rw [copyOne_buffer, copyOne_readQ] at hsent hline hloss
    rw [lossOf_copyOne] at hsent hloss
    rw [copyLoopSent, if_neg hne, copyOneSent_eq, Ring.contents_get hne]
    refine ⟨?_, hline, ?_⟩
    · simp only [accepted, hsent]
      split_ifs
      · simp
      · rcases Nat.le_one_iff_eq_zero_or_eq_one.mp (lossOf_le tty) with h | h
        · simp [h]
        · simp [h]
    · simp only [lossAfter, accepted, hloss]
      split_ifs <;> simp_all

theorem copyLoopSent_tty (n : Nat) (tty : Tty) : (copyLoopSent n tty).2 = copyLoop n tty := by
  induction n generalizing tty with
  | zero => rfl
  | succ n ih =>
    rw [copyLoopSent, copyLoop, copyOneSent_eq]
    by_cases he : EMPTY tty.readQ
    · rw [if_pos he, if_pos he]
    · rw [if_neg he, if_neg he]
      exact ih (copyOne tty)

theorem copyToBufferSent_tty (tty : Tty) : (copyToBufferSent tty).2 = copyToBuffer tty :=
  copyLoopSent_tty _ tty

theorem accepted_append (q : Queue) (l m : List Ch) :
    accepted q (l ++ m) = accepted q l ++ accepted (lineAfter q l) m := by
  induction l generalizing q with
  | nil => rfl
  | cons ch l ih =>
    rw [List.cons_append, accepted, accepted, ih, List.append_assoc]
    rfl

theorem copyCalls_sent (calls : List Queue) (tty : Tty) :
    (copyCalls calls tty).1 = (accepted tty.buffer (calls.flatMap Ring.contents)).drop
      (lossOf tty) := by
  induction calls generalizing tty with
  | nil => exact List.drop_nil.symm
  | cons readQ calls ih =>
    obtain ⟨hsent, hline, hloss⟩ := copyLoopSent_eq readQ.size { tty with readQ } rfl
    have hrest := ih (copyToBufferSent { tty with readQ }).2
    have hline' : (copyToBufferSent { tty with readQ }).2.buffer =
      lineAfter tty.buffer readQ.contents := hline
    have hloss' : lossOf (copyToBufferSent { tty with readQ }).2 =
      if accepted tty.buffer readQ.contents = [] then lossOf tty else 0 := hloss
    have hsent' : (copyToBufferSent { tty with readQ }).1 =
      (accepted tty.buffer readQ.contents).drop (lossOf tty) := hsent
    rw [hline', hloss'] at hrest
    rw [List.flatMap_cons, accepted_append, copyCalls]
    simp only [hsent', hrest]
    split_ifs with hnone
    · simp [hnone]
    · have hlen : lossOf tty ≤ (accepted tty.buffer readQ.contents).length :=
        (lossOf_le tty).trans (List.length_pos_iff.mpr hnone)
      rw [List.drop_append_of_le_length hlen, List.drop_zero]

theorem length_changing_le (q : Queue) (l : List Ch) :
    (changing q l).length ≤ (accepted q l).length := by
  induction l generalizing q with
  | nil => exact le_rfl
  | cons ch l ih =>
    have hrest := ih ((change q ch).apply q)
    rw [changing, accepted, List.length_append, List.length_append]
    by_cases hk : change q ch = .keep
    · rw [if_pos hk, List.length_nil]
      omega
    · rw [if_neg hk, if_neg (fun h => hk h.2)]
      omega

theorem accepted_eq_changing_iff (q : Queue) (l : List Ch) :
    accepted q l = changing q l ↔ NoneDropped q l := by
  induction l generalizing q with
  | nil => exact iff_of_true rfl trivial
  | cons ch l ih =>
    have hrest := ih ((change q ch).apply q)
    rw [accepted, changing, NoneDropped, ← hrest]
    by_cases hk : change q ch = .keep
    · rw [if_pos hk, List.nil_append]
      by_cases hb : ch = backspace
      · rw [if_pos ⟨hb, hk⟩, List.nil_append]
        exact (and_iff_right fun _ => .inl hb).symm
      · have hdrop := (change_keep_iff.mp hk).resolve_left fun h => hb h.1
        have hlen := length_changing_le ((change q ch).apply q) l
        rw [if_neg (fun h => hb h.1)]
        refine iff_of_false (fun h => ?_) (fun h => ?_)
        · rw [← h, List.length_append, List.length_singleton] at hlen
          omega
        · cases h.1 hdrop.1 with
          | inl h => exact hb h
          | inr h => cases h with
            | inl h => exact hdrop.2.2.1 h
            | inr h => exact hdrop.2.2.2 h
    · have hkept : ¬ (ch = backspace ∧ change q ch = .keep) := fun h => hk h.2
      have hfits : FULL q → ch = backspace ∨ ch = eof ∨ ch = newline := by
        intro hf
        by_contra hno
        obtain ⟨hb, hline⟩ := not_or.mp hno
        exact hk (change_keep_iff.mpr (.inr ⟨hf, hb, not_or.mp hline⟩))
      rw [if_neg hk, if_neg hkept, List.append_cancel_left_eq]
      exact (and_iff_right hfits).symm

theorem accepted_eq_nil_iff (q : Queue) (l : List Ch) : accepted q l = [] ↔ NothingTyped q l := by
  induction l with
  | nil => exact iff_of_true rfl fun _ h => absurd h List.not_mem_nil
  | cons ch l ih =>
    rw [accepted, NothingTyped, List.forall_mem_cons, List.append_eq_nil_iff]
    by_cases hk : ch = backspace ∧ change q ch = .keep
    · have hsame := apply_change_eq_iff.mpr hk.2
      have hnothing : ch = backspace ∧ (EMPTY q ∨ beforeHead q = newline) := by
        cases change_keep_iff.mp hk.2 with
        | inl h => exact h
        | inr h => exact absurd hk.1 h.2.1
      rw [if_pos hk, hsame, ih, and_iff_right rfl, and_iff_right hnothing]
      rfl
    · rw [if_neg hk]
      refine iff_of_false (fun h => absurd h.1 (List.cons_ne_nil ch [])) (fun h => hk ⟨h.1.1, ?_⟩)
      exact change_keep_iff.mpr (.inl h.1)

theorem accepted_eq_cons_changing_iff (c : Ch) (q : Queue) (l : List Ch) :
    accepted q l = c :: changing q l ↔ RepeatsUntilDropped c q l := by
  induction l generalizing q c with
  | nil => simp [accepted, changing, RepeatsUntilDropped]
  | cons ch l ih =>
    rw [accepted, changing, RepeatsUntilDropped]
    by_cases hsilent : ch = backspace ∧ change q ch = .keep
    · have hsame := apply_change_eq_iff.mpr hsilent.2
      rw [if_pos hsilent, if_pos hsilent, if_pos hsilent.2, hsame]
      exact ih c q
    · rw [if_neg hsilent, if_neg hsilent]
      by_cases hk : change q ch = .keep
      · have hsame := apply_change_eq_iff.mpr hk
        rw [if_pos hk, if_pos hk, hsame, List.singleton_append, List.nil_append, List.cons.injEq,
          accepted_eq_changing_iff]
      · rw [if_neg hk, if_neg hk, List.singleton_append, List.singleton_append, List.cons.injEq]
        constructor
        · rintro ⟨rfl, h⟩
          exact ⟨rfl, (ih ch _).mp h⟩
        · rintro ⟨rfl, h⟩
          exact ⟨rfl, (ih ch _).mpr h⟩

theorem accepted_tail_eq_changing_iff (q : Queue) (l : List Ch) :
    (accepted q l).drop 1 = changing q l ↔ FirstMayBeLost q l := by
  induction l generalizing q with
  | nil => exact iff_of_true rfl trivial
  | cons ch l ih =>
    rw [accepted, changing, FirstMayBeLost]
    by_cases hsilent : ch = backspace ∧ change q ch = .keep
    · have hsame := apply_change_eq_iff.mpr hsilent.2
      rw [if_pos hsilent, if_pos hsilent, if_pos hsilent.2, hsame]
      exact ih q
    · rw [if_neg hsilent, if_neg hsilent, List.singleton_append, List.drop_one, List.tail_cons]
      by_cases hk : change q ch = .keep
      · have hsame := apply_change_eq_iff.mpr hk
        rw [if_pos hk, if_pos hk, hsame, List.nil_append, accepted_eq_changing_iff]
      · rw [if_neg hk, if_neg hk, List.singleton_append, accepted_eq_cons_changing_iff]

theorem accepted_tail_eq_nil_iff (q : Queue) (l : List Ch) :
    (accepted q l).drop 1 = [] ↔ OneTyped q l := by
  induction l generalizing q with
  | nil => exact iff_of_true rfl trivial
  | cons ch l ih =>
    rw [accepted, OneTyped]
    by_cases hsilent : ch = backspace ∧ change q ch = .keep
    · have hsame := apply_change_eq_iff.mpr hsilent.2
      rw [if_pos hsilent, if_pos hsilent, hsame]
      exact ih q
    · rw [if_neg hsilent, if_neg hsilent, List.singleton_append, List.drop_one, List.tail_cons,
        accepted_eq_nil_iff]

def EchoMirrors (tty : Tty) (input : List Ch) : Prop :=
  if Echoes tty then
    if FULL tty.writeQ then FirstMayBeLost tty.buffer input else NoneDropped tty.buffer input
  else if FULL tty.writeQ then OneTyped tty.buffer input
  else NothingTyped tty.buffer input

/-- The echo mirrors the line buffer where the flag is set and nothing is dropped, or where the
flag is not set and there is nothing to echo; a full `write_q` swallows the first echo. -/
theorem echo_mirrors_line_buffer_iff (tty : Tty) (calls : List Queue) :
    ((copyCalls calls tty).1 = if Echoes tty then changing tty.buffer (calls.flatMap Ring.contents)
      else []) ↔
      EchoMirrors tty (calls.flatMap Ring.contents) := by
  rw [copyCalls_sent, EchoMirrors, lossOf]
  split_ifs with hfull hflag hflag
  · exact accepted_tail_eq_changing_iff tty.buffer _
  · exact accepted_tail_eq_nil_iff tty.buffer _
  · exact accepted_eq_changing_iff tty.buffer _
  · exact accepted_eq_nil_iff tty.buffer _

theorem echo_without_flag :
    ¬ Echoes { bootLine.tty with flags := 0 } ∧
      (copyCalls [⟨fun _ => 97, 1, 0⟩] { bootLine.tty with flags := 0 }).1 = [97] := by
  refine ⟨by decide, (copyCalls_sent _ _).trans ?_⟩
  rfl

end Hios.ChrDrv
