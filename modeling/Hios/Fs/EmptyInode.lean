import Hios.Fs.InodeCalls
import Hios.Fs.BlockBounds

/-! The search of `get_empty_inode` with every pointer it reads through: which entry it
picks, and what becomes of it when all entries are in use. -/
namespace Hios.Fs
variable {fs : FileSystem} {i j last : InodeIx}

def scanReads (fs : FileSystem) :
    Nat → InodeIx → Option InodeIx → List (Option InodeIx) × InodeIx × Option InodeIx
  | 0, last, inode => ([], last, inode)
  | n + 1, last, inode =>
    let last := last + 1
    if (fs.inode last).iCount = 0 then
      if (fs.inode last).iDirt = false ∧
        (fs.inode last).iLock = false then ([some last], last, some last)
      else
        let r := scanReads fs n last (some last)
        (some last :: r.1, r.2)
    else
      let r := scanReads fs n last inode
      (some last :: r.1, r.2)

/-- The `do` loop: the pointers it reads through, and `last_inode` and `inode` at its end;
`none` if it takes more than the given passes. `nullCount` is what lies where `i_count` of a
null entry would. -/
def searchLoop (fs : FileSystem) (nullCount : Nat) :
    Nat → InodeIx → Option (List (Option InodeIx) × InodeIx × Option InodeIx)
  | 0, _ => none
  | n + 1, last =>
    let r := scanReads fs NR_INODE last none
    let reads := r.1 ++ [r.2.2]
    let count := match r.2.2 with
      | none => nullCount
      | some i => (fs.inode i).iCount
    if count ≠ 0 then (searchLoop fs nullCount n r.2.1).map fun t => (reads ++ t.1, t.2)
      else some (reads, r.2)

def Clean (m : MInode) : Prop := m.iCount = 0 ∧ m.iDirt = false ∧ m.iLock = false

instance (m : MInode) : Decidable (Clean m) := inferInstanceAs (Decidable (_ ∧ _))

/-- One pass without a null pointer: a free entry is picked, a clean one if there is one, and
none only when all are in use. -/
def SearchRight (fs : FileSystem) (nullCount : Nat) : Prop :=
  ∃ reads last inode, searchLoop fs nullCount 1 fs.lastInode = some (reads, last, inode) ∧
    none ∉ reads ∧
    (∀ i, inode = some i → (fs.inode i).iCount = 0 ∧
      ((∃ j, Clean (fs.inode j)) → Clean (fs.inode i))) ∧
    (inode = none → ∀ j, (fs.inode j).iCount ≠ 0)

theorem scanReads_eq (fs : FileSystem) (n : Nat) (last : InodeIx) (inode : Option InodeIx) :
    (scanReads fs n last inode).2 = scanInodes fs n last inode := by
  induction n generalizing last inode with
  | zero => rfl
  | succ n ih =>
    simp only [scanReads, scanInodes]
    split
    · split
      · rfl
      · exact ih ..
    · exact ih ..

theorem scanReads_entries (fs : FileSystem) (n : Nat) (last : InodeIx) (inode : Option InodeIx) :
    none ∉ (scanReads fs n last inode).1 := by
  induction n generalizing last inode with
  | zero => exact List.not_mem_nil
  | succ n ih =>
    simp only [scanReads]
    split
    · split
      · simp
      · simpa using ih (last + 1) (some (last + 1))
    · simpa using ih (last + 1) inode

/-- The search stops at a clean entry, or has come past `n` entries that are not. -/
theorem scanInodes_clean (fs : FileSystem) (n : Nat) (last : InodeIx) (inode : Option InodeIx) :
    (∃ i, (scanInodes fs n last inode).2 = some i ∧ Clean (fs.inode i)) ∨
      ∀ k < n, ¬ Clean (fs.inode ((· + 1)^[k] (last + 1))) := by
  induction n generalizing last inode with
  | zero => exact .inr fun k hk => absurd hk (Nat.not_lt_zero k)
  | succ n ih =>
    by_cases hclean : Clean (fs.inode (last + 1))
    · left
      refine ⟨last + 1, ?_, hclean⟩
      simp only [scanInodes, if_pos hclean.1, if_pos hclean.2]
    · have hrest : ∀ found, (∃ i, (scanInodes fs n (last + 1) found).2 = some i ∧
        Clean (fs.inode i)) ∨
          ∀ k < n + 1, ¬ Clean (fs.inode ((· + 1)^[k] (last + 1))) := fun found => by
        cases ih (last + 1) found with
        | inl h => exact .inl h
        | inr h =>
          refine .inr fun k hk => ?_
          cases k with
          | zero => exact hclean
          | succ k => exact h k (Nat.lt_of_succ_lt_succ hk)
      simp only [scanInodes]
      split
      · rename_i hcount
        rw [if_neg fun h => hclean ⟨hcount, h⟩]
        exact hrest _
      · exact hrest _

/-- A pass over a table without a free entry ends at a null pointer, and reads through it. -/
theorem scanReads_full (hfull : ∀ i, (fs.inode i).iCount ≠ 0) :
    (scanReads fs NR_INODE fs.lastInode none).2.2 = none := by
  have hspec := scanInodes_spec fs NR_INODE fs.lastInode none fun i hi => by cases hi
  rw [scanReads_eq]
  cases hfound : (scanInodes fs NR_INODE fs.lastInode none).2 with
  | none => rfl
  | some i =>
    rw [hfound] at hspec
    exact absurd hspec (hfull i)

theorem scanReads_free (hi : (fs.inode i).iCount = 0) :
    ∃ j, (scanReads fs NR_INODE fs.lastInode none).2.2 = some j ∧ (fs.inode j).iCount = 0 := by
  have hspec := scanInodes_spec fs NR_INODE fs.lastInode none fun i hi => by cases hi
  rw [scanReads_eq]
  cases hfound : (scanInodes fs NR_INODE fs.lastInode none).2 with
  | none =>
    rw [hfound] at hspec
    obtain ⟨k, hk, hki⟩ := iterate_covers (fs.lastInode + 1) i
    exact absurd hi (hki ▸ hspec.2 k hk)
  | some j =>
    rw [hfound] at hspec
    exact ⟨j, rfl, hspec⟩

/-- The search does what it should exactly when an entry is free. -/
theorem search_right_iff (fs : FileSystem) (nullCount : Nat) :
    SearchRight fs nullCount ↔ ∃ i, (fs.inode i).iCount = 0 := by
  constructor
  · rintro ⟨reads, last, inode, hloop, hnull, _⟩
    by_contra hused
    have hfull := scanReads_full fun i hi => hused ⟨i, hi⟩
    simp only [searchLoop, hfull] at hloop
    split at hloop
    · cases hloop
    · obtain ⟨rfl, -⟩ := Prod.mk.inj (Option.some.inj hloop)
      exact hnull (List.mem_append_right _ (List.mem_singleton_self none))
  · rintro ⟨i, hi⟩
    obtain ⟨j, hfound, hj⟩ := scanReads_free hi
    have hclean := scanInodes_clean fs NR_INODE fs.lastInode none
    rw [← scanReads_eq, hfound] at hclean
    have hloop : searchLoop fs nullCount 1 fs.lastInode =
      some ((scanReads fs NR_INODE fs.lastInode none).1 ++ [some j],
        (scanReads fs NR_INODE fs.lastInode none).2.1, some j) := by
      simp only [searchLoop, hfound, hj, ne_eq, not_true_eq_false, if_false]
      rw [← hfound]
    refine ⟨_, _, some j, hloop, fun hnull => ?_, fun k hk => ?_, fun h => by cases h⟩
    · cases List.mem_append.mp hnull with
      | inl h => exact scanReads_entries fs NR_INODE fs.lastInode none h
      | inr h => cases List.mem_singleton.mp h
    · obtain rfl := Option.some.inj hk
      refine ⟨hj, fun ⟨m, hm⟩ => ?_⟩
      cases hclean with
      | inl h =>
        obtain ⟨k, hk, hclean⟩ := h
        exact Option.some.inj hk ▸ hclean
      | inr h =>
        obtain ⟨k, hk, hkm⟩ := iterate_covers (fs.lastInode + 1) m
        exact absurd (hkm ▸ hm) (h k hk)

/-- Where the word of a null entry is 0, the search ends as in `get_empty_inode`. -/
theorem searchLoop_null_zero (fs : FileSystem) (n : Nat) (last : InodeIx) :
    (searchLoop fs 0 (n + 1) last).map Prod.snd = some (scanInodes fs NR_INODE last none) := by
  have hspec := scanInodes_spec fs NR_INODE last none fun i hi => by cases hi
  rw [← scanReads_eq] at hspec ⊢
  cases hfound : (scanReads fs NR_INODE last none).2.2 with
  | none => simp [searchLoop, hfound]
  | some i =>
    rw [hfound] at hspec
    simp [searchLoop, hfound, hspec]

def fullTable : FileSystem :=
  { bigState DInode.zero with inode := fun _ => ⟨DInode.zero, 1, 1, 1, false, false, false, false⟩ }

theorem search_full :
    (searchLoop fullTable 0 1 fullTable.lastInode).map
      (fun r => (r.1.length, r.1.getLast?, r.2.2)) =
      some (33, some none, none) ∧
    ¬ SearchRight fullTable 0 := by
  have hrun : (searchLoop fullTable 0 1 fullTable.lastInode).map (fun r => (r.1.getLast?, r.2.2)) =
      some (some none, none) := by decide +kernel
  refine ⟨by decide +kernel, fun ⟨reads, last, inode, hloop, hnull, _⟩ => ?_⟩
  rw [hloop] at hrun
  obtain ⟨hlast, -⟩ := Prod.mk.inj (Option.some.inj hrun)
  exact hnull (List.mem_of_getLast? hlast)

end Hios.Fs
