import Mathlib.Data.List.GetD
import Mathlib.Data.List.Induction

/-! A text laid out in rows of a fixed width: a row ends at a break or as soon as
it is full. A screen shows its last rows. -/
namespace Hios.TextLayout
variable {α : Type*}

structure Layout (α : Type*) where
  done : List (List α)
  cur : List α

def Layout.empty : Layout α := ⟨[], []⟩

def Layout.add (l : Layout α) (ch : α) : Layout α := { l with cur := l.cur ++ [ch] }

def Layout.feed (l : Layout α) : Layout α := ⟨l.done ++ [l.cur], []⟩

def Layout.put (width : Nat) (isBreak : α → Prop) [DecidablePred isBreak] (l : Layout α) (ch : α) :
    Layout α :=
  if isBreak ch then l.feed
  else if (l.add ch).cur.length = width then (l.add ch).feed
  else l.add ch

def layout (width : Nat) (isBreak : α → Prop) [DecidablePred isBreak] (text : List α) : Layout α :=
  text.foldl (Layout.put width isBreak) Layout.empty

def Layout.cellAt (blank : α) (l : Layout α) (row col : Nat) : α :=
  ((l.done ++ [l.cur])[row]?.getD []).getD col blank

def Layout.top (height : Nat) (l : Layout α) : Nat := l.done.length + 1 - height

@[simp] theorem Layout.done_add (l : Layout α) (ch : α) : (l.add ch).done = l.done := rfl

@[simp] theorem Layout.length_cur_add (l : Layout α) (ch : α) :
    (l.add ch).cur.length = l.cur.length + 1 := by
  simp [add]

@[simp] theorem Layout.length_done_feed (l : Layout α) :
    l.feed.done.length = l.done.length + 1 := by
  simp [feed]

@[simp] theorem Layout.cur_feed (l : Layout α) : l.feed.cur = [] := rfl

section Cells
variable (blank : α) (l : Layout α)

theorem Layout.cellAt_beyond {row : Nat} (h : l.done.length < row) (col : Nat) :
    l.cellAt blank row col = blank := by
  have hnone : (l.done ++ [l.cur])[row]? = none := by
    apply List.getElem?_eq_none
    rw [List.length_append]
    exact h
  simp [cellAt, hnone]

theorem Layout.cellAt_done {row : Nat} (h : row < l.done.length) (col : Nat) :
    l.cellAt blank row col = (l.done[row]?.getD []).getD col blank := by
  rw [cellAt, List.getElem?_append_left h]

theorem Layout.cellAt_cur (col : Nat) :
    l.cellAt blank l.done.length col = l.cur.getD col blank := by
  simp [cellAt]

theorem Layout.cellAt_feed (row col : Nat) :
    l.feed.cellAt blank row col = l.cellAt blank row col := by
  by_cases hlt : row < l.feed.done.length
  · rw [cellAt_done blank _ hlt]
    rfl
  · by_cases hcur : row = l.feed.done.length
    · rw [hcur, cellAt_cur, cellAt_beyond blank l (by simp)]
      rfl
    · rw [cellAt_beyond blank l.feed (by omega), cellAt_beyond]
      rw [length_done_feed] at hlt hcur
      omega

theorem Layout.cellAt_add (ch : α) (row col : Nat) : (l.add ch).cellAt blank row col =
    if row = l.done.length ∧ col = l.cur.length then ch else l.cellAt blank row col := by
  by_cases hcur : row = l.done.length
  · subst hcur
    have hadd : (l.add ch).cellAt blank l.done.length col = (l.cur ++ [ch]).getD col blank :=
      (l.add ch).cellAt_cur blank col
    rw [hadd, cellAt_cur]
    by_cases hlt : col < l.cur.length
    · rw [if_neg (by omega), List.getD_append _ _ _ _ hlt]
    · rw [List.getD_append_right _ _ _ _ (by omega)]
      by_cases hcol : col = l.cur.length
      · simp [hcol]
      · have hlen : [ch].length ≤ col - l.cur.length := by
          rw [List.length_singleton]
          omega
        rw [if_neg (by omega), List.getD_eq_default _ _ hlen, List.getD_eq_default _ _ (by omega)]
  · rw [if_neg (by omega)]
    by_cases hlt : row < l.done.length
    · rw [cellAt_done blank l hlt, cellAt_done blank (l.add ch) hlt]
      rfl
    · rw [cellAt_beyond, cellAt_beyond]
      · omega
      · rw [done_add]
        omega

end Cells

section Put
variable {width : Nat} {isBreak : α → Prop} [DecidablePred isBreak]

theorem Layout.put_break {l : Layout α} {ch : α} (h : isBreak ch) :
    l.put width isBreak ch = l.feed := by
  rw [put, if_pos h]

theorem Layout.put_full {l : Layout α} {ch : α} (h : ¬ isBreak ch)
    (hfull : l.cur.length + 1 = width) :
    l.put width isBreak ch = (l.add ch).feed := by
  rw [put, if_neg h, if_pos (by simpa using hfull)]

theorem Layout.put_inside {l : Layout α} {ch : α} (h : ¬ isBreak ch)
    (hfree : l.cur.length + 1 ≠ width) :
    l.put width isBreak ch = l.add ch := by
  rw [put, if_neg h, if_neg (by simpa using hfree)]

theorem layout_concat (text : List α) (ch : α) :
    layout width isBreak (text ++ [ch]) = (layout width isBreak text).put width isBreak ch := by
  simp [layout]

theorem length_cur_layout (h : 0 < width) (text : List α) :
    (layout width isBreak text).cur.length < width := by
  induction text using List.reverseRecOn with
  | nil => exact h
  | append_singleton text ch ih =>
    rw [layout_concat]
    by_cases hb : isBreak ch
    · rw [Layout.put_break hb]
      exact h
    · by_cases hfull : (layout width isBreak text).cur.length + 1 = width
      · rw [Layout.put_full hb hfull]
        exact h
      · rw [Layout.put_inside hb hfull, Layout.length_cur_add]
        omega

end Put

end Hios.TextLayout
