import Hios.Lib.ByteCopy
import Hios.Lib.TextLayout
import Hios.ChrDrv.Tty

/-! The screen of `kernel/chr_drv/console.c`: what `con_write` does to the video
memory, and the text it shows. -/
namespace Hios.ChrDrv
open Hios.ByteCopy Hios.RingBuffer Hios.TextLayout

def VIDEO_MEM : Int := 0xB8000
def VIDEO_X_SZ : Nat := 80
def VIDEO_Y_SZ : Nat := 25
def TAB_LEN : Nat := 8
def WHITE_ON_BLACK : Ch := 0x0f

def tab : Ch := 9
def space : Ch := 32

/-- The cursor, all memory, and the registers 0x0f and 0x0e of the screen controller. -/
structure Console where
  videoX : Int
  videoY : Int
  mem : Int → Ch
  cursorLow : Ch
  cursorHigh : Ch

def updateCursor (row col : Int) (c : Console) : Console :=
  let pos := BitVec.ofInt 32 row * BitVec.ofNat 32 VIDEO_X_SZ + BitVec.ofInt 32 col
  { c with cursorLow := (pos &&& 0xff).setWidth 8, cursorHigh := ((pos >>> 8) &&& 0xff).setWidth 8 }

def cellAddr (x y : Int) : Int := VIDEO_MEM + 2 * (x + 80 * y)

def videoPutcharAt (ch : Ch) (x y : Int) (attr : Ch) (c : Console) : Console :=
  let x := if x ≥ 80 then 80 else x
  let y := if y ≥ 25 then 25 else y
  let mem := Function.update c.mem (cellAddr x y) ch
  { c with mem := Function.update mem (cellAddr x y + 1) attr }

def memcpy (dest src : Int) (count size : Nat) (mem : Int → Ch) : Int → Ch :=
  (List.range count).foldl (fun mem (i : Nat) => (List.range size).foldl (fun mem (j : Nat) =>
    Function.update mem (dest + i * size + j) (mem (src + i * size + j))) mem) mem

/-- The first loop of `roll_screen`: row `i = k + 1` goes to row `i - 1`. -/
def rollRows (mem : Int → Ch) : Int → Ch :=
  (List.range (VIDEO_Y_SZ - 1)).foldl (fun mem (k : Nat) =>
    let i : Int := k + 1
    memcpy (VIDEO_MEM + (i - 1) * 80 * 2) (VIDEO_MEM + i * 80 * 2) VIDEO_X_SZ 2 mem) mem

def rollScreen (c : Console) : Console :=
  (List.range VIDEO_X_SZ).foldl
    (fun c (i : Nat) => videoPutcharAt space i (VIDEO_Y_SZ - 1) WHITE_ON_BLACK c)
    { c with mem := rollRows c.mem }

def videoClear (c : Console) : Console :=
  (List.range VIDEO_X_SZ).foldl
    (fun c (x : Nat) => (List.range VIDEO_Y_SZ).foldl (fun c (y : Nat) =>
    videoPutcharAt space x y WHITE_ON_BLACK c) c) { c with videoX := 0, videoY := 0 }

/-- `while(video_x % TAB_LEN) video_x++;` takes fewer than `TAB_LEN` turns. -/
def tabLoop : Nat → Int → Int
  | 0, x => x
  | fuel + 1, x => if x.tmod TAB_LEN ≠ 0 then tabLoop fuel (x + 1) else x

def Console.right (c : Console) : Console := { c with videoX := c.videoX + 1 }

/-- The branches of `video_putchar` on the character. -/
def putByKind (ch : Ch) (c : Console) : Console :=
  if ch = newline then { c with videoX := 0, videoY := c.videoY + 1 }
  else if ch = tab then { c with videoX := tabLoop TAB_LEN c.videoX }
  else if ch = backspace then
    let x := c.videoX - 1
    let (x, y) : Int × Int :=
      if x < 0 then (VIDEO_X_SZ, if c.videoY - 1 < 0 then 0 else c.videoY - 1) else (x, c.videoY)
    videoPutcharAt space x y WHITE_ON_BLACK { c with videoX := x, videoY := y }
  else (videoPutcharAt ch c.videoX c.videoY WHITE_ON_BLACK c).right

def wrapLine (c : Console) : Console :=
  if c.videoX ≥ VIDEO_X_SZ then { c with videoX := 0, videoY := c.videoY + 1 } else c

def scroll (c : Console) : Console :=
  if c.videoY ≥ VIDEO_Y_SZ then { rollScreen c with videoX := 0, videoY := VIDEO_Y_SZ - 1 } else c

def videoPutchar (ch : Ch) (c : Console) : Console :=
  let c := scroll (wrapLine (putByKind ch c))
  updateCursor c.videoY c.videoX c

def conWriteLoop : Nat → Queue → Console → Queue × Console
  | 0, q, c => (q, c)
  | fuel + 1, q, c =>
    if EMPTY q then (q, c)
    else
      let (ch, q) := q.get
      conWriteLoop fuel q (videoPutchar ch c)

/-- `con_write` with the screen; each turn takes a byte off `write_q`. -/
def conWriteScreen (q : Queue) (c : Console) : Queue × Console := conWriteLoop q.size q c

theorem conWriteLoop_eq (n : Nat) (q : Queue) (c : Console) (hn : q.size = n) :
    conWriteLoop n q c =
      ({ q with tail := q.head }, q.contents.foldl (fun c ch => videoPutchar ch c) c) := by
  induction n generalizing q c with
  | zero =>
    have hempty : q.head = q.tail := Ring.size_eq_zero.mp hn
    obtain ⟨buf, head, tail⟩ := q
    rw [Ring.contents_eq_nil.mpr hempty, conWriteLoop]
    cases hempty
    rfl
  | succ n ih =>
    have hne : q.head ≠ q.tail := by
      intro h
      rw [Ring.size_eq_zero.mpr h] at hn
      cases hn
    have hsize := Ring.size_get hne
    have hfull : ¬ EMPTY q := hne
    rw [conWriteLoop, if_neg hfull, Ring.contents_get hne, List.foldl_cons]
    exact ih q.get.2 (videoPutchar q.get.1 c) (by omega)

theorem conWriteScreen_eq (q : Queue) (c : Console) :
    conWriteScreen q c =
      ({ q with tail := q.head }, q.contents.foldl (fun c ch => videoPutchar ch c) c) :=
  conWriteLoop_eq q.size q c rfl

theorem conWriteScreen_queue (tty : Tty) (c : Console) :
    (conWriteScreen tty.writeQ c).1 = (conWrite tty).writeQ := by
  rw [conWriteScreen_eq]
  rfl

def cell (mem : Int → Ch) (x y : Nat) : Ch × Ch := (mem (cellAddr x y), mem (cellAddr x y + 1))

def SameOutside (mem mem' : Int → Ch) : Prop :=
  ∀ a, a < VIDEO_MEM ∨ VIDEO_MEM + 4000 ≤ a → mem' a = mem a

theorem SameOutside.refl (mem : Int → Ch) : SameOutside mem mem := fun _ _ => rfl

theorem SameOutside.trans {m₁ m₂ m₃ : Int → Ch} (h₁ : SameOutside m₁ m₂) (h₂ : SameOutside m₂ m₃) :
    SameOutside m₁ m₃ := by
  intro a ha
  exact (h₂ a ha).trans (h₁ a ha)

section PutcharAt
variable {x y : Nat} (hx : x < VIDEO_X_SZ) (hy : y < VIDEO_Y_SZ) (ch attr : Ch) (c : Console)
include hx hy

theorem videoPutcharAt_eq : videoPutcharAt ch x y attr c = { c with
    mem := Function.update (Function.update c.mem (cellAddr x y) ch) (cellAddr x y + 1) attr } := by
  simp only [VIDEO_X_SZ, VIDEO_Y_SZ] at hx hy
  simp only [videoPutcharAt]
  rw [if_neg (by omega), if_neg (by omega)]

theorem videoPutcharAt_cell {x' : Nat} (hx' : x' < VIDEO_X_SZ) (y' : Nat) :
    cell (videoPutcharAt ch x y attr c).mem x' y' = if x' = x ∧ y' = y then (ch, attr)
      else cell c.mem x' y' := by
  rw [videoPutcharAt_eq hx hy]
  simp only [VIDEO_X_SZ] at hx hx'
  by_cases hsame : x' = x ∧ y' = y
  · obtain ⟨rfl, rfl⟩ := hsame
    rw [if_pos ⟨rfl, rfl⟩]
    simp [cell]
  · have h₁ : cellAddr x' y' ≠ cellAddr x y := by
      simp only [cellAddr]
      omega
    have h₂ : cellAddr x' y' ≠ cellAddr x y + 1 := by
      simp only [cellAddr]
      omega
    have h₃ : cellAddr x' y' + 1 ≠ cellAddr x y := by
      simp only [cellAddr]
      omega
    have h₄ : cellAddr x' y' + 1 ≠ cellAddr x y + 1 := by omega
    rw [if_neg hsame]
    simp only [cell, Function.update_of_ne h₁, Function.update_of_ne h₂, Function.update_of_ne h₃,
      Function.update_of_ne h₄]

theorem videoPutcharAt_outside : SameOutside c.mem (videoPutcharAt ch x y attr c).mem := by
  intro a ha
  rw [videoPutcharAt_eq hx hy]
  simp only [VIDEO_X_SZ, VIDEO_Y_SZ] at hx hy
  have h₁ : a ≠ cellAddr x y := by
    simp only [cellAddr]
    omega
  have h₂ : a ≠ cellAddr x y + 1 := by
    simp only [cellAddr]
    omega
  simp only [Function.update_of_ne h₁, Function.update_of_ne h₂]

end PutcharAt

def blankAll (ps : List (Nat × Nat)) (c : Console) : Console :=
  ps.foldl (fun c p => videoPutcharAt space p.1 p.2 WHITE_ON_BLACK c) c

def lastRow : List (Nat × Nat) := (List.range VIDEO_X_SZ).map fun x => (x, VIDEO_Y_SZ - 1)

def allCells : List (Nat × Nat) :=
  (List.range VIDEO_X_SZ).flatMap fun x => (List.range VIDEO_Y_SZ).map fun y => (x, y)

def OnScreen (ps : List (Nat × Nat)) : Prop := ∀ p ∈ ps, p.1 < VIDEO_X_SZ ∧ p.2 < VIDEO_Y_SZ

theorem blankAll_cursor (ps : List (Nat × Nat)) (c : Console) :
    (blankAll ps c).videoX = c.videoX ∧ (blankAll ps c).videoY = c.videoY := by
  induction ps generalizing c with
  | nil => exact ⟨rfl, rfl⟩
  | cons p ps ih => exact ih (videoPutcharAt space p.1 p.2 WHITE_ON_BLACK c)

theorem blankAll_cell {ps : List (Nat × Nat)} (hps : OnScreen ps) (c : Console) {x : Nat}
    (hx : x < VIDEO_X_SZ) (y : Nat) : cell (blankAll ps c).mem x y =
      if (x, y) ∈ ps then (space, WHITE_ON_BLACK) else cell c.mem x y := by
  induction ps generalizing c with
  | nil => rfl
  | cons p ps ih =>
    obtain ⟨hp₁, hp₂⟩ := hps p List.mem_cons_self
    have hrec := ih (fun q hq => hps q (List.mem_cons_of_mem p hq))
      (videoPutcharAt space p.1 p.2 WHITE_ON_BLACK c)
    rw [videoPutcharAt_cell hp₁ hp₂ space WHITE_ON_BLACK c hx] at hrec
    rw [blankAll, List.foldl_cons]
    refine hrec.trans ?_
    by_cases hmem : (x, y) ∈ ps
    · rw [if_pos hmem, if_pos (List.mem_cons_of_mem p hmem)]
    · rw [if_neg hmem]
      by_cases hp : x = p.1 ∧ y = p.2
      · rw [if_pos hp, if_pos]
        rw [hp.1, hp.2]
        exact List.mem_cons_self
      · rw [if_neg hp, if_neg]
        intro hin
        cases List.mem_cons.mp hin with
        | inl heq => exact hp ⟨congrArg Prod.fst heq, congrArg Prod.snd heq⟩
        | inr hin => exact hmem hin

theorem blankAll_outside {ps : List (Nat × Nat)} (hps : OnScreen ps) (c : Console) :
    SameOutside c.mem (blankAll ps c).mem := by
  induction ps generalizing c with
  | nil => exact SameOutside.refl c.mem
  | cons p ps ih =>
    obtain ⟨hp₁, hp₂⟩ := hps p List.mem_cons_self
    apply (videoPutcharAt_outside hp₁ hp₂ space WHITE_ON_BLACK c).trans
    exact ih (fun q hq => hps q (List.mem_cons_of_mem p hq)) _

theorem videoClear_eq (c : Console) :
    videoClear c = blankAll allCells { c with videoX := 0, videoY := 0 } := by
  simp only [videoClear, blankAll, allCells, List.foldl_flatMap, List.foldl_map]

theorem rollScreen_eq (c : Console) :
    rollScreen c = blankAll lastRow { c with mem := rollRows c.mem } := by
  simp only [rollScreen, blankAll, lastRow, List.foldl_map]
  rfl

theorem memcpy_copied {dest src : Int} (h : dest ≤ src) (count size : Nat) (mem : Int → Ch) :
    Copied mem (memcpy dest src count size mem) dest src (count * size) := by
  apply Copied.loop h
  intro m i
  exact Copied.cells (by omega) size m

theorem rollRows_copied (mem : Int → Ch) :
    Copied mem (rollRows mem) VIDEO_MEM (VIDEO_MEM + 160) ((VIDEO_Y_SZ - 1) * 160) := by
  apply Copied.loop (by omega)
  intro m k
  have hcopy := memcpy_copied (by omega : VIDEO_MEM + k * 160 ≤ VIDEO_MEM + 160 + k * 160)
    VIDEO_X_SZ 2 m
  have hdest : VIDEO_MEM + ((k : Int) + 1 - 1) * 80 * 2 = VIDEO_MEM + k * 160 := by omega
  have hsrc : VIDEO_MEM + ((k : Int) + 1) * 80 * 2 = VIDEO_MEM + 160 + k * 160 := by omega
  simp only [hdest, hsrc]
  exact hcopy

theorem rollRows_cell (mem : Int → Ch) {x y : Nat} (hx : x < VIDEO_X_SZ) (hy : y + 1 < VIDEO_Y_SZ) :
    cell (rollRows mem) x y = cell mem x (y + 1) := by
  have hrow : cellAddr x y + (VIDEO_MEM + 160 - VIDEO_MEM) = cellAddr x (y + 1 : Nat) := by
    simp only [cellAddr]
    omega
  have hattr : cellAddr x y + 1 + (VIDEO_MEM + 160 - VIDEO_MEM) = cellAddr x (y + 1 : Nat) + 1 := by
    simp only [cellAddr]
    omega
  simp only [VIDEO_X_SZ, VIDEO_Y_SZ] at hx hy
  have hin : VIDEO_MEM ≤ cellAddr x y ∧
      cellAddr x y + 1 < VIDEO_MEM + ((VIDEO_Y_SZ - 1) * 160 : Nat) := by
    simp only [cellAddr, VIDEO_Y_SZ]
    omega
  rw [cell, rollRows_copied mem, rollRows_copied mem, if_pos ⟨hin.1, by omega⟩,
    if_pos ⟨by omega, hin.2⟩,
    hrow, hattr]
  rfl

theorem rollRows_outside (mem : Int → Ch) : SameOutside mem (rollRows mem) := by
  intro a ha
  rw [rollRows_copied mem, if_neg]
  simp only [VIDEO_Y_SZ]
  omega

theorem mem_lastRow {x y : Nat} : (x, y) ∈ lastRow ↔ x < VIDEO_X_SZ ∧ y = VIDEO_Y_SZ - 1 := by
  simp only [lastRow, List.mem_map, List.mem_range, Prod.mk.injEq]
  constructor
  · rintro ⟨_, hx, hxx, hy⟩
    exact ⟨hxx ▸ hx, hy.symm⟩
  · rintro ⟨hx, hy⟩
    exact ⟨x, hx, rfl, hy.symm⟩

theorem lastRow_onScreen : OnScreen lastRow := by
  intro p hp
  obtain ⟨hx, hy⟩ := mem_lastRow.mp hp
  rw [hy]
  exact ⟨hx, by decide⟩

theorem rollScreen_cell (c : Console) {x y : Nat} (hx : x < VIDEO_X_SZ) (hy : y < VIDEO_Y_SZ) :
    cell (rollScreen c).mem x y =
      if y = VIDEO_Y_SZ - 1 then (space, WHITE_ON_BLACK) else cell c.mem x (y + 1) := by
  rw [rollScreen_eq, blankAll_cell lastRow_onScreen _ hx]
  by_cases hlast : y = VIDEO_Y_SZ - 1
  · rw [if_pos hlast, if_pos (mem_lastRow.mpr ⟨hx, hlast⟩)]
  · rw [if_neg hlast, if_neg]
    · exact rollRows_cell c.mem hx (by omega)
    · intro hmem
      exact hlast (mem_lastRow.mp hmem).2

theorem rollScreen_outside (c : Console) : SameOutside c.mem (rollScreen c).mem := by
  rw [rollScreen_eq]
  exact (rollRows_outside c.mem).trans (blankAll_outside lastRow_onScreen _)

theorem mem_allCells {x y : Nat} : (x, y) ∈ allCells ↔ x < VIDEO_X_SZ ∧ y < VIDEO_Y_SZ := by
  simp only [allCells, List.mem_flatMap, List.mem_map, List.mem_range, Prod.mk.injEq]
  constructor
  · rintro ⟨_, hx, _, hy, hxx, hyy⟩
    exact ⟨hxx ▸ hx, hyy ▸ hy⟩
  · rintro ⟨hx, hy⟩
    exact ⟨x, hx, y, hy, rfl, rfl⟩

theorem allCells_onScreen : OnScreen allCells := fun _ hp => mem_allCells.mp hp

theorem videoClear_cell (c : Console) {x y : Nat} (hx : x < VIDEO_X_SZ) (hy : y < VIDEO_Y_SZ) :
    cell (videoClear c).mem x y = (space, WHITE_ON_BLACK) := by
  rw [videoClear_eq, blankAll_cell allCells_onScreen _ hx, if_pos (mem_allCells.mpr ⟨hx, hy⟩)]

theorem videoClear_outside (c : Console) : SameOutside c.mem (videoClear c).mem := by
  rw [videoClear_eq]
  exact blankAll_outside allCells_onScreen { c with videoX := 0, videoY := 0 }

def isNewline (ch : Ch) : Prop := ch = newline

instance : DecidablePred isNewline := fun ch => inferInstanceAs (Decidable (ch = newline))

def textRows (text : List Ch) : Layout Ch := layout VIDEO_X_SZ isNewline text

/-- The screen shows the last rows of `l`, and the cursor is behind the last character. -/
structure Shown (l : Layout Ch) (c : Console) : Prop where
  column : c.videoX = l.cur.length
  row : c.videoY = (l.done.length - l.top VIDEO_Y_SZ : Nat)
  cells : ∀ x < VIDEO_X_SZ, ∀ y < VIDEO_Y_SZ,
    cell c.mem x y = (l.cellAt space (l.top VIDEO_Y_SZ + y) x, WHITE_ON_BLACK)

theorem shown_videoClear (c : Console) : Shown Layout.empty (videoClear c) := by
  obtain ⟨hx, hy⟩ := blankAll_cursor allCells { c with videoX := 0, videoY := 0 }
  rw [← videoClear_eq] at hx hy
  refine ⟨hx, hy, ?_⟩
  intro x hx y hy
  rw [videoClear_cell c hx hy]
  by_cases hrow : y = 0
  · rw [hrow]
    rfl
  · rw [Layout.cellAt_beyond]
    simp only [Layout.empty, Layout.top, List.length_nil, VIDEO_Y_SZ]
    omega

theorem Shown.add {l : Layout Ch} {c : Console} (h : Shown l c) (hlt : l.cur.length < VIDEO_X_SZ)
    (ch : Ch) :
    Shown (l.add ch) (videoPutcharAt ch c.videoX c.videoY WHITE_ON_BLACK c).right := by
  have hrow : l.done.length - l.top VIDEO_Y_SZ < VIDEO_Y_SZ := by
    simp only [Layout.top, VIDEO_Y_SZ]
    omega
  have htop : l.top VIDEO_Y_SZ ≤ l.done.length := by
    simp only [Layout.top, VIDEO_Y_SZ]
    omega
  refine ⟨?_, ?_, ?_⟩
  · rw [Layout.length_cur_add, Nat.cast_add, ← h.column]
    rfl
  · exact h.row
  · intro x hx y hy
    have hcell := videoPutcharAt_cell hlt hrow ch WHITE_ON_BLACK c hx y
    rw [← h.column, ← h.row] at hcell
    refine hcell.trans ?_
    rw [Layout.cellAt_add, h.cells x hx y hy]
    have hsame : (l.add ch).top VIDEO_Y_SZ = l.top VIDEO_Y_SZ := rfl
    rw [hsame]
    by_cases hat : x = l.cur.length ∧ y = l.done.length - l.top VIDEO_Y_SZ
    · rw [if_pos hat, if_pos (by omega)]
    · rw [if_neg hat, if_neg (by omega)]

theorem Shown.feed {l : Layout Ch} {c : Console} (h : Shown l c) :
    Shown l.feed (scroll { c with videoX := 0, videoY := c.videoY + 1 }) := by
  by_cases hroll : VIDEO_Y_SZ ≤ l.done.length + 1
  · have htop : l.feed.top VIDEO_Y_SZ = l.top VIDEO_Y_SZ + 1 := by
      simp only [Layout.top, Layout.length_done_feed]
      omega
    have hfull : c.videoY + 1 ≥ VIDEO_Y_SZ := by
      rw [h.row]
      simp only [Layout.top]
      omega
    rw [scroll, if_pos hfull]
    refine ⟨rfl, ?_, ?_⟩
    · rw [htop, Layout.length_done_feed]
      simp only [Layout.top, VIDEO_Y_SZ] at hroll ⊢
      omega
    · intro x hx y hy
      rw [rollScreen_cell _ hx hy, htop, Layout.cellAt_feed]
      by_cases hlast : y = VIDEO_Y_SZ - 1
      · rw [if_pos hlast, Layout.cellAt_beyond]
        simp only [Layout.top]
        omega
      · rw [if_neg hlast]
        refine (h.cells x hx (y + 1) (by omega)).trans ?_
        rw [Nat.add_right_comm, Nat.add_assoc]
  · have htop : l.feed.top VIDEO_Y_SZ = l.top VIDEO_Y_SZ := by
      simp only [Layout.top, Layout.length_done_feed]
      omega
    have hroom : ¬ c.videoY + 1 ≥ VIDEO_Y_SZ := by
      rw [h.row]
      simp only [Layout.top]
      omega
    rw [scroll, if_neg hroom]
    refine ⟨rfl, ?_, ?_⟩
    · simp only [h.row, Layout.length_done_feed, Layout.top]
      omega
    · intro x hx y hy
      rw [htop, Layout.cellAt_feed]
      exact h.cells x hx y hy

theorem Shown.updateCursor {l : Layout Ch} {c : Console} (h : Shown l c) (row col : Int) :
    Shown l (ChrDrv.updateCursor row col c) := ⟨h.column, h.row, h.cells⟩

theorem Shown.settled {l : Layout Ch} {c : Console} (h : Shown l c)
    (hlt : l.cur.length < VIDEO_X_SZ) :
    scroll (wrapLine c) = c := by
  have hx : ¬ c.videoX ≥ VIDEO_X_SZ := by
    rw [h.column]
    omega
  have hy : ¬ c.videoY ≥ VIDEO_Y_SZ := by
    rw [h.row]
    simp only [Layout.top, VIDEO_Y_SZ]
    omega
  rw [wrapLine, if_neg hx, scroll, if_neg hy]

theorem shown_videoPutchar {l : Layout Ch} {c : Console} (h : Shown l c)
    (hlt : l.cur.length < VIDEO_X_SZ) {ch : Ch} (htab : ch ≠ tab) (hback : ch ≠ backspace) :
    Shown (l.put VIDEO_X_SZ isNewline ch) (videoPutchar ch c) := by
  apply Shown.updateCursor
  by_cases hnl : isNewline ch
  · have hx : ¬ (0 : Int) ≥ VIDEO_X_SZ := by decide
    rw [Layout.put_break hnl, putByKind, if_pos (show ch = newline from hnl), wrapLine, if_neg hx]
    exact h.feed
  · rw [putByKind, if_neg (show ¬ ch = newline from hnl), if_neg htab, if_neg hback]
    have hadd := h.add hlt ch
    by_cases hfull : l.cur.length + 1 = VIDEO_X_SZ
    · have hx : (videoPutcharAt ch c.videoX c.videoY WHITE_ON_BLACK c).right.videoX ≥
          VIDEO_X_SZ := by
        rw [hadd.column, Layout.length_cur_add]
        omega
      rw [Layout.put_full hnl hfull, wrapLine, if_pos hx]
      exact hadd.feed
    · rw [Layout.put_inside hnl hfull]
      have hroom : (l.add ch).cur.length < VIDEO_X_SZ := by
        rw [Layout.length_cur_add]
        omega
      rw [hadd.settled hroom]
      exact hadd

def putText (text : List Ch) (c : Console) : Console := text.foldl (fun c ch => videoPutchar ch c) c

theorem putText_nil (c : Console) : putText [] c = c := rfl

theorem putText_concat (text : List Ch) (ch : Ch) (c : Console) :
    putText (text ++ [ch]) c = videoPutchar ch (putText text c) := by
  simp [putText]

theorem putText_append (text text' : List Ch) (c : Console) :
    putText (text ++ text') c = putText text' (putText text c) := by
  simp [putText]

def Plain (text : List Ch) : Prop := ∀ ch ∈ text, ch ≠ tab ∧ ch ≠ backspace

theorem shown_putText {text : List Ch} (hplain : Plain text) (c : Console) :
    Shown (textRows text) (putText text (videoClear c)) := by
  induction text using List.reverseRecOn with
  | nil =>
    rw [putText_nil]
    exact shown_videoClear c
  | append_singleton text ch ih =>
    have hch := hplain ch (List.mem_append_right text List.mem_cons_self)
    rw [putText_concat, textRows, layout_concat]
    exact shown_videoPutchar (ih fun x hx => hplain x (List.mem_append_left [ch] hx))
      (length_cur_layout (by decide) text) hch.1 hch.2

theorem putByKind_outside {l : Layout Ch} {c : Console} (h : Shown l c)
    (hlt : l.cur.length < VIDEO_X_SZ) {ch : Ch} (htab : ch ≠ tab) (hback : ch ≠ backspace) :
    SameOutside c.mem (putByKind ch c).mem := by
  by_cases hnl : ch = newline
  · rw [putByKind, if_pos hnl]
    exact SameOutside.refl c.mem
  · have hrow : l.done.length - l.top VIDEO_Y_SZ < VIDEO_Y_SZ := by
      simp only [Layout.top, VIDEO_Y_SZ]
      omega
    have hout := videoPutcharAt_outside hlt hrow ch WHITE_ON_BLACK c
    rw [← h.column, ← h.row] at hout
    rw [putByKind, if_neg hnl, if_neg htab, if_neg hback]
    exact hout

theorem wrapLine_mem (c : Console) : (wrapLine c).mem = c.mem := by
  rw [wrapLine]
  split
  · rfl
  · rfl

theorem scroll_outside (c : Console) : SameOutside c.mem (scroll c).mem := by
  by_cases h : c.videoY ≥ VIDEO_Y_SZ
  · rw [scroll, if_pos h]
    exact rollScreen_outside c
  · rw [scroll, if_neg h]
    exact SameOutside.refl c.mem

theorem putText_outside {text : List Ch} (hplain : Plain text) (c : Console) :
    SameOutside c.mem (putText text (videoClear c)).mem := by
  induction text using List.reverseRecOn with
  | nil =>
    rw [putText_nil]
    exact videoClear_outside c
  | append_singleton text ch ih =>
    have hch := hplain ch (List.mem_append_right text List.mem_cons_self)
    have hrest : Plain text := fun x hx => hplain x (List.mem_append_left [ch] hx)
    have hkind := putByKind_outside (shown_putText hrest c)
      (length_cur_layout (by decide) text) hch.1 hch.2
    have hscroll := scroll_outside (wrapLine (putByKind ch (putText text (videoClear c))))
    rw [wrapLine_mem] at hscroll
    rw [putText_concat]
    exact (ih hrest).trans (hkind.trans hscroll)

theorem low_high {w : BitVec 32} (h : w.toNat < 2 ^ 16) :
    (((w >>> 8) &&& 0xff).setWidth 8 ++ (w &&& 0xff).setWidth 8).toNat = w.toNat := by
  have hlow : ((w &&& 0xff).setWidth 8).toNat = w.toNat % 2 ^ 8 := by
    have hand : w.toNat &&& 255 = w.toNat % 2 ^ 8 := Nat.and_two_pow_sub_one_eq_mod w.toNat 8
    rw [BitVec.toNat_setWidth, BitVec.toNat_and]
    exact (congrArg (· % 2 ^ 8) hand).trans (Nat.mod_mod _ _)
  have hhigh : (((w >>> 8) &&& 0xff).setWidth 8).toNat = w.toNat / 2 ^ 8 := by
    have hand : (w >>> 8).toNat &&& 255 = (w >>> 8).toNat % 2 ^ 8 :=
      Nat.and_two_pow_sub_one_eq_mod _ 8
    have hshift : (w >>> 8).toNat = w.toNat / 2 ^ 8 := by
      rw [BitVec.toNat_ushiftRight, Nat.shiftRight_eq_div_pow]
    rw [BitVec.toNat_setWidth, BitVec.toNat_and]
    refine (congrArg (· % 2 ^ 8) hand).trans ?_
    rw [Nat.mod_mod, hshift]
    omega
  rw [BitVec.toNat_append, hlow, hhigh, ← Nat.shiftLeft_add_eq_or_of_lt (Nat.mod_lt _ (by decide)),
    Nat.shiftLeft_eq]
  omega

def CursorSet (c : Console) : Prop :=
  ((c.cursorHigh ++ c.cursorLow).toNat : Int) = 80 * c.videoY + c.videoX

theorem updateCursor_set {l : Layout Ch} {c : Console} (h : Shown l c)
    (hlt : l.cur.length < VIDEO_X_SZ) :
    CursorSet (updateCursor c.videoY c.videoX c) := by
  have hrow : l.done.length - l.top VIDEO_Y_SZ < VIDEO_Y_SZ := by
    simp only [Layout.top, VIDEO_Y_SZ]
    omega
  generalize hy : l.done.length - l.top VIDEO_Y_SZ = y at hrow
  generalize hx : l.cur.length = x at hlt
  have hc₁ : c.videoX = x := h.column.trans (by rw [hx])
  have hc₂ : c.videoY = y := h.row.trans (by rw [hy])
  simp only [VIDEO_X_SZ, VIDEO_Y_SZ] at hlt hrow
  have hpos : (BitVec.ofInt 32 (y : Int) * BitVec.ofNat 32 VIDEO_X_SZ + BitVec.ofInt 32
    (x : Int)).toNat =
      80 * y + x := by
    rw [BitVec.toNat_add, BitVec.toNat_mul, BitVec.ofInt_natCast, BitVec.ofInt_natCast]
    simp only [BitVec.toNat_ofNat, VIDEO_X_SZ]
    omega
  simp only [CursorSet, updateCursor, hc₁, hc₂]
  rw [low_high (by omega), hpos]
  omega

structure ShowsTail (text : List Ch) (c : Console) : Prop where
  columns : 0 ≤ c.videoX ∧ c.videoX < VIDEO_X_SZ
  rows : 0 ≤ c.videoY ∧ c.videoY < VIDEO_Y_SZ
  shown : Shown (textRows text) c

theorem cursorSet_putText {text : List Ch} (hplain : Plain text) (hne : text ≠ []) (c : Console) :
    CursorSet (putText text (videoClear c)) := by
  induction text using List.reverseRecOn with
  | nil => exact absurd rfl hne
  | append_singleton text ch _ =>
    have hshown := shown_putText hplain c
    rw [putText_concat] at hshown ⊢
    exact updateCursor_set ⟨hshown.column, hshown.row, hshown.cells⟩
      (length_cur_layout (by decide) (text ++ [ch]))

theorem Shown.showsTail {text : List Ch} {c : Console} (h : Shown (textRows text) c) :
    ShowsTail text c := by
  have hlt : (textRows text).cur.length < VIDEO_X_SZ := length_cur_layout (by decide) text
  refine ⟨?_, ?_, h⟩
  · rw [h.column]
    omega
  · rw [h.row]
    simp only [Layout.top, VIDEO_Y_SZ]
    omega

def writeAll (qs : List Queue) (c : Console) : Console :=
  qs.foldl (fun c q => (conWriteScreen q c).2) c

theorem writeAll_eq (qs : List Queue) (c : Console) :
    writeAll qs c = putText (qs.flatMap Ring.contents) c := by
  induction qs generalizing c with
  | nil => rfl
  | cons q qs ih =>
    rw [writeAll, List.foldl_cons, List.flatMap_cons, putText_append]
    refine (ih _).trans ?_
    rw [conWriteScreen_eq]
    rfl

/-- The screen after any number of calls, and after every single character of them. -/
theorem console_shows_tail (qs : List Queue) (c : Console)
    (hplain : Plain (qs.flatMap Ring.contents)) :
    ShowsTail (qs.flatMap Ring.contents) (writeAll qs (videoClear c)) ∧
      SameOutside c.mem (writeAll qs (videoClear c)).mem ∧
      ∀ text, text <+: qs.flatMap Ring.contents →
        ShowsTail text (putText text (videoClear c)) ∧
        SameOutside c.mem (putText text (videoClear c)).mem ∧
          (text ≠ [] → CursorSet (putText text (videoClear c))) := by
  rw [writeAll_eq]
  refine ⟨(shown_putText hplain c).showsTail, putText_outside hplain c, ?_⟩
  intro text hpre
  have htext : Plain text := fun ch hch => hplain ch (hpre.subset hch)
  exact ⟨(shown_putText htext c).showsTail, putText_outside htext c,
    fun hne => cursorSet_putText htext hne c⟩

def twoLetters : Queue := ⟨fun _ => 65, 2, 0⟩

theorem console_shows_two_letters :
    ShowsTail ([twoLetters].flatMap Ring.contents)
      (writeAll [twoLetters] (videoClear ⟨0, 0, fun _ => 0, 0, 0⟩)) :=
  (console_shows_tail [twoLetters] ⟨0, 0, fun _ => 0, 0, 0⟩ (by unfold Plain; decide)).1

end Hios.ChrDrv
