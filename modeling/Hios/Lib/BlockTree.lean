import Mathlib.Data.List.Basic
import Mathlib.Logic.Function.Basic

/-! Trees of blocks: the entries of a block name the blocks below it, and 0 names none.
A path is written with its last step first. -/
namespace Hios.BlockTree
variable {ρ ι ζ : Type*}

structure Tree (ρ ι ζ : Type*) where
  root : ρ → ζ
  entry : ζ → ι → ζ

inductive Slot (ρ ι ζ : Type*) where
  | root (r : ρ)
  | entry (z : ζ) (k : ι)

section
variable [Zero ζ] [DecidableEq ζ]

def blockAt (T : Tree ρ ι ζ) (r : ρ) : List ι → ζ
  | [] => T.root r
  | k :: up => if blockAt T r up = 0 then 0 else T.entry (blockAt T r up) k

def slot (T : Tree ρ ι ζ) (r : ρ) : List ι → Option (Slot ρ ι ζ)
  | [] => some (.root r)
  | k :: up => if blockAt T r up = 0 then none else some (.entry (blockAt T r up) k)

def Tree.read (T : Tree ρ ι ζ) : Slot ρ ι ζ → ζ
  | .root r => T.root r
  | .entry z k => T.entry z k

/-- No block of the tree, which is `depth r` steps deep under `r`, is named at two places. -/
def NamedOnce (depth : ρ → Nat) (T : Tree ρ ι ζ) : Prop :=
  ∀ r l r' l', l.length ≤ depth r → l'.length ≤ depth r' → blockAt T r l ≠ 0 →
    blockAt T r l = blockAt T r' l' →
    r = r' ∧ l = l'

def Unnamed (depth : ρ → Nat) (T : Tree ρ ι ζ) (z : ζ) : Prop :=
  ∀ r l, l.length ≤ depth r → blockAt T r l ≠ z

variable {depth : ρ → Nat} {T T' : Tree ρ ι ζ} {r r' : ρ} {l l' : List ι} {k : ι} {z : ζ}

theorem blockAt_cons (h : blockAt T r l ≠ 0) : blockAt T r (k :: l) = T.entry (blockAt T r l) k :=
  if_neg h

theorem blockAt_broken (h : blockAt T r l = 0) : blockAt T r (k :: l) = 0 := if_pos h

theorem blockAt_up (h : blockAt T r (k :: l) ≠ 0) : blockAt T r l ≠ 0 :=
  fun h0 => h (blockAt_broken h0)

theorem slot_inj (hone : NamedOnce depth T) (hl : l.length ≤ depth r) (hl' : l'.length ≤ depth r')
    {s : Slot ρ ι ζ} (h : slot T r l = some s) (h' : slot T r' l' = some s) : r = r' ∧ l = l' := by
  cases l with
  | nil =>
    cases l' with
    | nil =>
      have he : some (Slot.root r) = some (Slot.root r') := h.trans h'.symm
      exact ⟨Slot.root.inj (Option.some.inj he), rfl⟩
    | cons k' up' =>
      obtain rfl := Option.some.inj h
      simp only [slot] at h'
      split at h'
      · cases h'
      · cases h'
  | cons k up =>
    by_cases hup : blockAt T r up = 0
    · simp [slot, hup] at h
    · rw [slot, if_neg hup] at h
      obtain rfl := Option.some.inj h
      cases l' with
      | nil => cases h'
      | cons k' up' =>
        by_cases hup' : blockAt T r' up' = 0
        · simp [slot, hup'] at h'
        · rw [slot, if_neg hup'] at h'
          obtain ⟨hz, hk⟩ := Slot.entry.inj (Option.some.inj h')
          obtain ⟨hr, hsame⟩ :=
            hone r up r' up' (Nat.le_of_succ_le hl) (Nat.le_of_succ_le hl') hup hz.symm
          exact ⟨hr, by rw [hk, hsame]⟩

/-- Where the roots and the blocks of the tree are the same, all paths are. -/
theorem blockAt_congr (depth : ρ → Nat) (hroot : T'.root = T.root)
    (hentry : ∀ r l, l.length < depth r → blockAt T r l ≠ 0 →
      T'.entry (blockAt T r l) = T.entry (blockAt T r l))
    (hl : l.length ≤ depth r) : blockAt T' r l = blockAt T r l := by
  induction l with
  | nil => exact congrFun hroot r
  | cons k up ih =>
    have hsame := ih (Nat.le_of_succ_le hl)
    by_cases hup : blockAt T r up = 0
    · rw [blockAt_broken hup, blockAt_broken (hsame.trans hup)]
    · rw [blockAt_cons hup, blockAt_cons (hsame ▸ hup), hsame, hentry r up hl hup]

end

variable [DecidableEq ρ] [DecidableEq ι] [DecidableEq ζ] [Zero ζ]

def put (T : Tree ρ ι ζ) (r : ρ) : List ι → ζ → Tree ρ ι ζ
  | [], z => { T with root := Function.update T.root r z }
  | k :: up, z =>
    { T with entry := Function.update T.entry (blockAt T r up) (Function.update
      (T.entry (blockAt T r up)) k z) }

variable {depth : ρ → Nat} {T : Tree ρ ι ζ} {r r' : ρ} {l l' : List ι} {z : ζ}

/-- An empty block that is put where the tree ends changes this path only. -/
theorem blockAt_put (hone : NamedOnce depth T) (hnew : Unnamed depth T z)
  (hz : z ≠ 0) (hzero : ∀ k, T.entry z k = 0)
    (hend : blockAt T r l = 0) (hup : ∀ k up, l = k :: up → blockAt T r up ≠ 0)
      (hl : l.length ≤ depth r)
    (hl' : l'.length ≤ depth r') :
    blockAt (put T r l z) r' l' = if r' = r ∧ l' = l then z else blockAt T r' l' := by
  induction l' with
  | nil =>
    cases l with
    | nil =>
      by_cases hr : r' = r
      · simp [blockAt, put, hr]
      · simp [blockAt, put, hr]
    | cons k up => simp [blockAt, put]
  | cons k' up' ih =>
    have hlup' := Nat.le_of_succ_le hl'
    have ih := ih hlup'
    have hentry : ∀ w, (put T r l z).entry w k' =
        if l.head? = some k' ∧ w = blockAt T r l.tail then z else T.entry w k' := by
      intro w
      cases l with
      | nil => simp [put]
      | cons k up =>
        by_cases hw : w = blockAt T r up
        · by_cases hk : k' = k
          · simp [put, hw, hk]
          · have hne : ¬ k = k' := fun e => hk e.symm
            simp [put, hw, hk, hne]
        · simp [put, hw]
    by_cases hat : r' = r ∧ up' = l
    · -- the path goes on through the new block, which is empty
      obtain ⟨rfl, rfl⟩ := hat
      rw [if_pos ⟨rfl, rfl⟩] at ih
      have hno : ¬ (r' = r' ∧ k' :: up' = up') := fun h => List.cons_ne_self _ _ h.2
      have hnone : ¬ (up'.head? = some k' ∧ z = blockAt T r' up'.tail) := by
        rintro ⟨_, hz⟩
        refine hnew r' up'.tail ?_ hz.symm
        rw [List.length_tail]
        omega
      rw [if_neg hno, blockAt_cons (ih.trans_ne hz), ih, hentry, if_neg hnone, hzero,
        blockAt_broken hend]
    · rw [if_neg hat] at ih
      by_cases hw : blockAt T r' up' = 0
      · have hno : ¬ (r' = r ∧ k' :: up' = l) := by
          rintro ⟨hr, hcons⟩
          exact hup k' up' hcons.symm (hr ▸ hw)
        rw [if_neg hno, blockAt_broken hw, blockAt_broken (ih.trans hw)]
      · rw [blockAt_cons (ih.trans_ne hw), ih, hentry, blockAt_cons hw]
        by_cases hthis : r' = r ∧ k' :: up' = l
        · obtain ⟨rfl, rfl⟩ := hthis
          rw [if_pos ⟨rfl, rfl⟩, if_pos ⟨rfl, rfl⟩]
        · have hnone : ¬ (l.head? = some k' ∧ blockAt T r' up' = blockAt T r l.tail) := by
            rintro ⟨hhead, hsame⟩
            have htail : l.tail.length ≤ depth r := by
              rw [List.length_tail]
              omega
            obtain ⟨hr, hup'⟩ := hone r' up' r l.tail hlup' htail hw hsame
            exact hthis ⟨hr, by rw [hup', List.cons_head?_tail hhead]⟩
          rw [if_neg hnone, if_neg hthis]

theorem namedOnce_put (hone : NamedOnce depth T) (hnew : Unnamed depth T z) (hz : z ≠ 0)
    (hzero : ∀ k, T.entry z k = 0) (hend : blockAt T r l = 0)
    (hup : ∀ k up, l = k :: up → blockAt T r up ≠ 0) (hl : l.length ≤ depth r) :
    NamedOnce depth (put T r l z) := by
  intro a la b lb hla hlb hne hsame
  rw [blockAt_put hone hnew hz hzero hend hup hl hla] at hne hsame
  rw [blockAt_put hone hnew hz hzero hend hup hl hlb] at hsame
  by_cases ha : a = r ∧ la = l
  · by_cases hb : b = r ∧ lb = l
    · exact ⟨ha.1.trans hb.1.symm, ha.2.trans hb.2.symm⟩
    · rw [if_pos ha, if_neg hb] at hsame
      exact absurd hsame.symm (hnew b lb hlb)
  · by_cases hb : b = r ∧ lb = l
    · rw [if_neg ha, if_pos hb] at hsame
      exact absurd hsame (hnew a la hla)
    · rw [if_neg ha] at hne
      rw [if_neg ha, if_neg hb] at hsame
      exact hone a la b lb hla hlb hne hsame

end Hios.BlockTree
