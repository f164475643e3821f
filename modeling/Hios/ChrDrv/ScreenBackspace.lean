import Hios.ChrDrv.Console

/-! `video_putchar` of a backspace. In column 0 it sets `video_x` to 80, which is the wrap
test's value for the start of the next row. -/
namespace Hios.ChrDrv

def Console.At (c : Console) (x y : Nat) : Prop := c.videoX = x ∧ c.videoY = y

def Printed (ch : Ch) : Prop := ch ≠ newline ∧ ch ≠ tab ∧ ch ≠ backspace

def Scrolls (ch : Ch) (c : Console) : Prop := (wrapLine (putByKind ch c)).videoY ≥ VIDEO_Y_SZ

instance (ch : Ch) (c : Console) : Decidable (Scrolls ch c) := inferInstanceAs (Decidable (_ ≥ _))

def SameElsewhere (x y : Nat) (c c' : Console) : Prop :=
  ∀ x' < VIDEO_X_SZ, ∀ y' < VIDEO_Y_SZ, ¬ (x' = x ∧ y' = y) → cell c'.mem x' y' = cell c.mem x' y'

/-- The cursor is back at `(x, y)`, on the screen too, and the cell there is blank. -/
structure Undone (x y : Nat) (c c' : Console) : Prop where
  cursor : c'.At x y
  shown : updateCursor y x c' = c'
  blank : cell c'.mem x y = (space, WHITE_ON_BLACK)
  others : SameElsewhere x y c c'

def StaysAtOrigin (c c' : Console) : Prop := c'.At 0 0 ∧ SameElsewhere 0 0 c c'

section
variable {ch : Ch} {c : Console} {x y : Nat}

theorem updateCursor_mem (row col : Int) (c : Console) : (updateCursor row col c).mem = c.mem := rfl

theorem updateCursor_updateCursor (row col : Int) (c : Console) :
    updateCursor row col (updateCursor row col c) = updateCursor row col c := rfl

theorem videoPutchar_inside (hx : (putByKind ch c).videoX < VIDEO_X_SZ)
    (hy : (putByKind ch c).videoY < VIDEO_Y_SZ) :
    videoPutchar ch c = updateCursor (putByKind ch c).videoY (putByKind ch c).videoX
      (putByKind ch c) := by
  have hwrap : wrapLine (putByKind ch c) = putByKind ch c := if_neg (by omega)
  have hscroll : scroll (putByKind ch c) = putByKind ch c := if_neg (by omega)
  rw [videoPutchar, hwrap, hscroll]

theorem putByKind_printed (hch : Printed ch) (hat : c.At x y) :
    putByKind ch c = (videoPutcharAt ch x y WHITE_ON_BLACK c).right := by
  obtain ⟨hnl, htab, hback⟩ := hch
  rw [putByKind, if_neg hnl, if_neg htab, if_neg hback, hat.1, hat.2]

theorem putByKind_backspace (hat : c.At (x + 1) y) :
    putByKind backspace c = videoPutcharAt space x y WHITE_ON_BLACK { c with videoX := x } := by
  obtain ⟨hx, hy⟩ := hat
  have hback : c.videoX - 1 = x := by omega
  have hinside : ¬ (x : Int) < 0 := by omega
  have hnl : backspace ≠ newline := by decide
  have htab : backspace ≠ tab := by decide
  simp only [putByKind, if_neg hnl, if_neg htab, if_true, hback, if_neg hinside, hy]

theorem putByKind_backspace_zero (hx : c.videoX = 0) :
    (putByKind backspace c).videoX = VIDEO_X_SZ ∧
      (putByKind backspace c).videoY = if c.videoY - 1 < 0 then 0 else c.videoY - 1 := by
  have hleft : c.videoX - 1 < 0 := by omega
  have hnl : backspace ≠ newline := by decide
  have htab : backspace ≠ tab := by decide
  simp only [putByKind, if_neg hnl, if_neg htab, if_true, if_pos hleft]
  exact ⟨rfl, rfl⟩

theorem videoPutchar_backspace_zero (hx : c.videoX = 0) (hroom : c.videoY < VIDEO_Y_SZ) :
    (videoPutchar backspace c).videoX = 0 ∧
      (videoPutchar backspace c).videoY = (if c.videoY - 1 < 0 then 0 else c.videoY - 1) + 1 := by
  obtain ⟨hcol, hrow⟩ := putByKind_backspace_zero hx
  have hwrap : wrapLine (putByKind backspace c) =
      { putByKind backspace c with videoX := 0, videoY := (putByKind backspace c).videoY + 1 } :=
        if_pos hcol.ge
  have hlow : ¬ (putByKind backspace c).videoY + 1 ≥ VIDEO_Y_SZ := by
    rw [hrow]
    simp only [VIDEO_Y_SZ] at hroom ⊢
    split
    · omega
    · omega
  have hscroll : scroll (wrapLine (putByKind backspace c)) = wrapLine (putByKind backspace c) := by
    rw [hwrap]
    exact if_neg hlow
  rw [videoPutchar, hscroll, hwrap]
  exact ⟨rfl, congrArg (· + 1) hrow⟩

theorem videoPutchar_printed (hch : Printed ch) (hat : c.At x y) (hx : x + 1 < VIDEO_X_SZ)
    (hy : y < VIDEO_Y_SZ) :
    videoPutchar ch c = updateCursor y (x + 1 : Nat)
      (videoPutcharAt ch x y WHITE_ON_BLACK c).right := by
  have hkind := putByKind_printed hch hat
  have hcol : (putByKind ch c).videoX = (x + 1 : Nat) := by
    rw [hkind]
    exact congrArg (· + 1) hat.1
  have hrow : (putByKind ch c).videoY = y := by
    rw [hkind]
    exact hat.2
  rw [videoPutchar_inside (by omega) (by omega), hcol, hrow, hkind]

theorem videoPutchar_backspace (hat : c.At (x + 1) y) (hx : x < VIDEO_X_SZ) (hy : y < VIDEO_Y_SZ) :
    videoPutchar backspace c =
      updateCursor y x (videoPutcharAt space x y WHITE_ON_BLACK { c with videoX := x }) := by
  have hkind := putByKind_backspace hat
  have hcol : (putByKind backspace c).videoX = x := by rw [hkind]; rfl
  have hrow : (putByKind backspace c).videoY = y := by
    rw [hkind]
    exact hat.2
  rw [videoPutchar_inside (by omega) (by omega), hcol, hrow, hkind]

theorem undone_inside (hch : Printed ch) (hat : c.At x y) (hx : x + 1 < VIDEO_X_SZ)
    (hy : y < VIDEO_Y_SZ) :
    Undone x y c (videoPutchar backspace (videoPutchar ch c)) := by
  have hx' : x < VIDEO_X_SZ := Nat.lt_of_succ_lt hx
  have htyped : (videoPutchar ch c).At (x + 1) y := by
    rw [videoPutchar_printed hch hat hx hy]
    exact ⟨congrArg (· + 1) hat.1, hat.2⟩
  rw [videoPutchar_backspace htyped hx' hy]
  refine ⟨⟨rfl, htyped.2⟩, updateCursor_updateCursor _ _ _, ?_, ?_⟩
  · rw [updateCursor_mem, videoPutcharAt_cell hx' hy _ _ _ hx', if_pos ⟨rfl, rfl⟩]
  · intro x₁ hx₁ y₁ hy₁ hne
    rw [updateCursor_mem, videoPutcharAt_cell hx' hy _ _ _ hx₁, if_neg hne,
      videoPutchar_printed hch hat hx hy,
      updateCursor_mem]
    exact (videoPutcharAt_cell hx' hy ch WHITE_ON_BLACK c hx₁ y₁).trans (if_neg hne)

/-- In the last column the character moves the cursor to a new row, from which no backspace goes
back. -/
theorem not_undone_lastColumn (hch : Printed ch) (hat : c.At x y) (hx : x + 1 = VIDEO_X_SZ)
    (hscroll : ¬ Scrolls ch c) : ¬ Undone x y c (videoPutchar backspace (videoPutchar ch c)) := by
  have hkind := putByKind_printed hch hat
  have hcol : (putByKind ch c).videoX ≥ VIDEO_X_SZ := by
    rw [hkind, ← hx]
    exact (congrArg (· + 1) hat.1).ge
  have hwrap : wrapLine (putByKind ch c) =
      { putByKind ch c with videoX := 0, videoY := (putByKind ch c).videoY + 1 } := if_pos hcol
  have hstay : scroll (wrapLine (putByKind ch c)) = wrapLine (putByKind ch c) := if_neg hscroll
  have htyped : (videoPutchar ch c).videoX = 0 ∧ (videoPutchar ch c).videoY < VIDEO_Y_SZ := by
    rw [Scrolls, not_le, hwrap] at hscroll
    rw [videoPutchar, hstay, hwrap]
    exact ⟨rfl, hscroll⟩
  intro hundone
  have hback := (videoPutchar_backspace_zero htyped.1 htyped.2).1
  rw [hundone.cursor.1] at hback
  simp only [VIDEO_X_SZ] at hx
  omega

end

/-- Where no row is scrolled away, a backspace undoes the character typed before it exactly
when that was not in the last column; at the start of the screen it always moves the cursor. -/
theorem screen_backspace_iff (ch : Ch) (c : Console) (x y : Nat) (hat : c.At x y)
    (hx : x < VIDEO_X_SZ) (hy : y < VIDEO_Y_SZ) :
    (Printed ch → ¬ Scrolls ch c →
      (Undone x y c (videoPutchar backspace (videoPutchar ch c)) ↔ x + 1 < VIDEO_X_SZ)) ∧
    (x = 0 → y = 0 → ¬ StaysAtOrigin c (videoPutchar backspace c)) := by
  refine ⟨fun hch hscroll => ⟨fun hundone => ?_, fun hin => undone_inside hch hat hin hy⟩, ?_⟩
  · by_contra hlast
    exact not_undone_lastColumn hch hat (by omega) hscroll hundone
  · rintro rfl rfl hstays
    have hrow := (videoPutchar_backspace_zero hat.1 (by rw [hat.2]; decide)).2
    rw [hstays.1.2, hat.2] at hrow
    cases hrow

def clearedAt (x y : Int) : Console :=
  { videoClear ⟨0, 0, fun _ => 0, 0, 0⟩ with videoX := x, videoY := y }

theorem screen_backspace_iff_letter :
    Undone 3 0 (clearedAt 3 0) (videoPutchar backspace (videoPutchar 65 (clearedAt 3 0))) ↔
    3 + 1 < VIDEO_X_SZ :=
  (screen_backspace_iff 65 (clearedAt 3 0) 3 0 ⟨rfl, rfl⟩ (by decide) (by decide)).1
    ⟨by decide, by decide, by decide⟩ (by decide)

theorem lastColumn_backspace_not_undone :
    (clearedAt 79 0).At 79 0 ∧ ¬ Scrolls 65 (clearedAt 79 0) ∧
      ¬ Undone 79 0 (clearedAt 79 0) (videoPutchar backspace (videoPutchar 65 (clearedAt 79 0))) :=
  ⟨⟨rfl, rfl⟩, by decide,
    not_undone_lastColumn ⟨by decide, by decide, by decide⟩ ⟨rfl, rfl⟩ rfl (by decide)⟩

end Hios.ChrDrv
