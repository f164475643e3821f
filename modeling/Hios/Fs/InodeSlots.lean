import Hios.Fs.OpenRefs
import Hios.Fs.Mounts

/-! `iget` and `iput` by several processes, with mount points. A process may sleep between
the choice of an entry in `get_empty_inode` and the `memset` of it, and the code does not
look at `i_count` again. -/
namespace Hios.Fs
open Hios.Run Hios.Holdings

inductive SlotNext where
  | done
  /-- `iget` returns this entry. -/
  | got (i : InodeIx)
  /-- `iget` searches on for the root of the file system it has crossed to. -/
  | scan (dev nr : Nat) (e : InodeIx)

/-- Where a process is in `iget` or `iput`: in the `wait_on_inode` or `write_inode` of
`get_empty_inode`, with the entry it has chosen; in `wait_on_inode` for the entry found; in
`read_inode`; in `iput`. -/
inductive SlotPc where
  | empty (dev nr : Nat) (e : InodeIx)
  | found (dev nr : Nat) (e i : InodeIx)
  | reading (e : InodeIx)
  | put (i : InodeIx) (pc : PutPc) (next : SlotNext)

inductive SlotEnd where
  | at (pc : SlotPc)
  | returns (i : InodeIx)
  | done

/-- The `while` loop of `iget`, from the start of the table. `read_inode` panics on a device
without a super block. -/
def slotScan (dev nr : Nat) (e : InodeIx) (fs : FileSystem) : Option (FileSystem × SlotEnd) :=
  match findInode fs dev nr with
  | some i => some (fs, .at (.found dev nr e i))
  | none =>
    if (getSuper (dev % 65536) fs).isSome then
      some (fs.setInode e { fs.inode e with iDev := dev % 65536, iNum := nr % 65536 }, .at
        (.reading e))
    else none

def SlotNext.goOn (fs : FileSystem) : SlotNext → Option (FileSystem × SlotEnd)
  | .done => some (fs, .done)
  | .got i => some (fs, .returns i)
  | .scan dev nr e => slotScan dev nr e fs

/-- What a process does up to the next point where it may sleep; `none` is a panic. -/
def slotStep (fs : FileSystem) : SlotPc → Option (FileSystem × SlotEnd)
  | .empty dev nr e =>
    -- a dirty entry is written, and waited for again
    if (fs.inode e).iLock ∨ (fs.inode e).iDirt then some (fs, .at (.empty dev nr e))
    else slotScan dev nr e (fs.setInode e { MInode.zero with iCount := 1 })
  | .found dev nr e i =>
    let m := fs.inode i
    if m.iLock then some (fs, .at (.found dev nr e i))
    else if m.iDev ≠ dev ∨ m.iNum ≠ nr then slotScan dev nr e fs
    else
      let fs := fs.setInode i { m with iCount := (m.iCount + 1) % 65536 }
      if m.iMount then
        match mountedOn fs i with
        -- `iget` returns the entry that it puts back here
        | none => some (fs, .at (.put e .wait (.got e)))
        | some sb => some (fs, .at (.put i .wait (.scan sb.sDev ROOT_INO e)))
      else some (fs, .at (.put e .wait (.got i)))
  | .reading e => some (fs, .returns e)
  | .put i pc next =>
    (putStep i .closed fs pc).bind fun r =>
      match r.2 with
      | .at (.put _ pc _) => some (r.1, .at (.put i pc next))
      | _ => next.goOn r.1

variable {ι : Type*} [DecidableEq ι]

/-- `held` are the entries that a process has got from `iget` and not put back. -/
structure SlotSystem (ι : Type*) where
  fs : FileSystem
  held : ι → List InodeIx
  call : ι → Option SlotPc

inductive SlotAct (ι : Type*) where
  | iget (p : ι) (dev nr : Nat)
  | iput (p : ι) (i : InodeIx)
  /-- A process inside a call goes on; where it sleeps it may stay. -/
  | go (p : ι)
  /-- What `read_inode`, `write_inode`, `truncate` and the holders of the entries do to their
  contents, locks and dirty flags. -/
  | io (inode : InodeIx → MInode)

def SlotSystem.onward (s : SlotSystem ι) (p : ι) : SlotEnd → SlotSystem ι
  | .at pc => { s with call := Function.update s.call p (some pc) }
  | .returns i => { s with
    held := Function.update s.held p (i :: s.held p), call := Function.update s.call p none }
  | .done => { s with call := Function.update s.call p none }

def slotSystemStep (s : SlotSystem ι) : SlotAct ι → Option (SlotSystem ι)
  | .iget p dev nr =>
    if (s.call p).isSome ∨ dev = 0 then none
    else
      let (last, found) := scanInodes s.fs NR_INODE s.fs.lastInode none
      found.map fun e =>
        { s with fs := { s.fs with lastInode := last }, call := Function.update s.call p (some
          (.empty dev nr e)) }
  | .iput p i =>
    if (s.call p).isSome ∨ i ∉ s.held p then none
    else some { s with
      held := Function.update s.held p ((s.held p).erase i)
      call := Function.update s.call p (some (.put i .wait .done)) }
  | .go p =>
    (s.call p).bind fun pc => (slotStep s.fs pc).map fun r => { s with fs := r.1 }.onward p r.2
  | .io inode =>
    some { s with fs := { s.fs with inode := fun i => ioEntry (s.fs.inode i) (inode i) } }

def SlotNext.held : SlotNext → List InodeIx
  | .done => []
  | .got i => [i]
  | .scan _ _ e => [e]

def SlotPc.held : SlotPc → List InodeIx
  | .empty _ _ _ => []
  | .found _ _ e _ | .reading e => [e]
  | .put i _ next => i :: next.held

def SlotEnd.held : SlotEnd → List InodeIx
  | .at pc => pc.held
  | .returns i => [i]
  | .done => []

def SlotPc.chosen : SlotPc → Option InodeIx
  | .empty _ _ e => some e
  | _ => none

def SlotSystem.chosen (s : SlotSystem ι) (p : ι) : Option InodeIx := (s.call p).bind SlotPc.chosen

def SlotSystem.refs (s : SlotSystem ι) (p : ι) : List InodeIx :=
  s.held p ++ (s.call p).elim [] SlotPc.held

def wipes (fs : FileSystem) : SlotPc → Option InodeIx
  | .empty _ _ e => if (fs.inode e).iLock ∨ (fs.inode e).iDirt then none else some e
  | _ => none

def shares (fs : FileSystem) : SlotPc → Option InodeIx
  | .found dev nr _ i =>
    if (fs.inode i).iLock ∨ (fs.inode i).iDev ≠ dev ∨ (fs.inode i).iNum ≠ nr then none else some i
  | _ => none

def Takes (fs : FileSystem) (pc : SlotPc) (i : InodeIx) : Prop :=
  wipes fs pc = some i ∨ shares fs pc = some i

/-- No process takes an entry that another one has chosen and is still waiting for. The count of
an entry that is shared fits, and if it is a mount point, a file system is mounted there. -/
def TakesUnchosen (s : SlotSystem ι) : SlotAct ι → Prop
  | .go p => ∀ pc, s.call p = some pc →
      (∀ i, Takes s.fs pc i → ∀ q, q ≠ p → s.chosen q ≠ some i) ∧
      ∀ i, shares s.fs pc = some i →
        (s.fs.inode i).iCount + 1 < 65535 ∧
          ((s.fs.inode i).iMount = true → (mountedOn s.fs i).isSome)
  | _ => True

instance (fs : FileSystem) (pc : SlotPc) (i : InodeIx) : Decidable (Takes fs pc i) :=
  inferInstanceAs (Decidable (_ ∨ _))

instance [Fintype ι] (s : SlotSystem ι) : ∀ a, Decidable (TakesUnchosen s a)
  | .go p =>
    inferInstanceAs (Decidable
      (∀ pc ∈ s.call p, (∀ i, Takes s.fs pc i → ∀ q, q ≠ p → s.chosen q ≠ some i) ∧
      ∀ i ∈ shares s.fs pc, (s.fs.inode i).iCount + 1 < 65535 ∧
        ((s.fs.inode i).iMount = true → (mountedOn s.fs i).isSome)))
  | .iget .. | .iput .. | .io _ => .isTrue trivial

/-- An entry that is cleared is free, and no process uses it. -/
def WipesFree (s : SlotSystem ι) : SlotAct ι → Prop
  | .go p => ∀ pc e, s.call p = some pc → wipes s.fs pc = some e →
      ((s.fs.inode e).iCount = 0 ∧ (s.fs.inode e).iDirt = false ∧ (s.fs.inode e).iLock = false) ∧
        ∀ q, e ∉ s.refs q
  | _ => True

variable {fs fs' fs₁ : FileSystem} {i e : InodeIx} {o : SlotEnd} {pc : SlotPc} {dev nr : Nat}
  {l l' : List InodeIx}
  {new : InodeIx → Prop}

def SlotEnd.Ok (fs : FileSystem) : SlotEnd → Prop
  | .at (.put i .again _) | .at (.put i .free _) => (fs.inode i).iDev ≠ 0
  | _ => True

/-- What a stretch of code does to the table: it takes and puts back references, and raises the
counts of the `new` entries only. -/
structure Handled (l l' : List InodeIx) (new : InodeIx → Prop) (fs fs' : FileSystem) : Prop where
  balanced : Balanced l l' fs fs'
  most : ∀ j, ¬ new j → (fs'.inode j).iCount ≤ (fs.inode j).iCount
  fit : ∀ j, (fs'.inode j).iCount < 65535
  range : ∀ j, (fs'.inode j).iDev < 65536
  device : ∀ j, (fs.inode j).iDev ≠ 0 → (fs'.inode j).iDev = 0 →
    (fs.inode j).iCount = 0 ∨ (fs.inode j).iCount = 1 ∧ j ∈ l

theorem Handled.refl (hfit : ∀ j, (fs.inode j).iCount < 65535)
    (hrange : ∀ j, (fs.inode j).iDev < 65536) (l : List InodeIx) : Handled l l new fs fs :=
  ⟨.same fun _ => rfl, fun _ _ => Nat.le_refl _, hfit, hrange, fun _ h h' => absurd h' h⟩

theorem Handled.perm (h : Handled l l' new fs fs') {l'' : List InodeIx} (hp : l'.Perm l'') :
    Handled l l'' new fs fs' :=
  ⟨h.balanced.perm hp, h.most, h.fit, h.range, h.device⟩

theorem Handled.append (h : Handled l l' new fs fs') (k : List InodeIx) :
    Handled (l ++ k) (l' ++ k) new fs fs' := by
  refine ⟨fun j => ?_, h.most, h.fit, h.range,
    fun j hj hj' => (h.device j hj hj').imp id fun hone => ?_⟩
  · have hbal := h.balanced j
    simp only [List.count_append]
    omega
  · exact ⟨hone.1, List.mem_append_left k hone.2⟩

inductive Searching (e : InodeIx) : SlotEnd → Prop where
  | found (dev nr : Nat) (i : InodeIx) : Searching e (.at (.found dev nr e i))
  | reading : Searching e (.at (.reading e))

theorem Searching.held (h : Searching e o) : o.held = [e] := by
  cases h with
  | found dev nr i => rfl
  | reading => rfl

theorem Searching.ok (h : Searching e o) (fs : FileSystem) : o.Ok fs := by
  cases h with
  | found dev nr i => trivial
  | reading => trivial

theorem Handled.scan (h : Handled l l' new fs fs₁) (hs : slotScan dev nr e fs₁ = some (fs', o)) :
    Handled l l' new fs fs' ∧ Searching e o := by
  unfold slotScan at hs
  cases hf : findInode fs₁ dev nr with
  | some i =>
    rw [hf] at hs
    obtain ⟨rfl, rfl⟩ := Prod.mk.inj (Option.some.inj hs)
    exact ⟨h, .found dev nr i⟩
  | none =>
    by_cases hsuper : (getSuper (dev % 65536) fs₁).isSome
    · simp only [hf, if_pos hsuper] at hs
      obtain ⟨rfl, rfl⟩ := Prod.mk.inj (Option.some.inj hs)
      have hne := getSuper_ne_zero hsuper
      have hcount : ∀ j, ((fs₁.setInode e
        { fs₁.inode e with iDev := dev % 65536, iNum := nr % 65536 }).inode j).iCount =
          (fs₁.inode j).iCount := fun j => by
        by_cases hj : j = e
        · simp [FileSystem.setInode, hj]
        · simp [FileSystem.setInode, hj]
      refine ⟨⟨fun j => ?_, fun j hj => ?_, fun j => ?_, fun j => ?_, fun j hdev hdev' => ?_⟩,
        .reading⟩
      · rw [hcount]
        exact h.balanced j
      · rw [hcount]
        exact h.most j hj
      · rw [hcount]
        exact h.fit j
      · by_cases hj : j = e
        · simpa [FileSystem.setInode, hj] using Nat.mod_lt dev (by decide)
        · simpa [FileSystem.setInode, hj] using h.range j
      · by_cases hj : j = e
        · simp [FileSystem.setInode, hj] at hdev'
          exact absurd hdev' hne
        · simp [FileSystem.setInode, hj] at hdev'
          exact h.device j hdev hdev'
    · simp [hf, hsuper] at hs

theorem Handled.wipe (hfit : ∀ j, (fs.inode j).iCount < 65535)
    (hrange : ∀ j, (fs.inode j).iDev < 65536) (hzero : (fs.inode e).iCount = 0) (hnew : new e) :
    Handled [] [e] new fs (fs.setInode e { MInode.zero with iCount := 1 }) := by
  refine ⟨balanced_take (by rw [hzero]) [], fun j hj => ?_, fun j => ?_, fun j => ?_,
    fun j hdev hdev' => ?_⟩
  · by_cases hje : j = e
    · exact absurd (hje ▸ hnew) hj
    · simp [FileSystem.setInode, hje]
  · by_cases hje : j = e
    · simp [FileSystem.setInode, hje]
    · simpa [FileSystem.setInode, hje] using hfit j
  · by_cases hje : j = e
    · simp [FileSystem.setInode, hje, MInode.zero]
    · simpa [FileSystem.setInode, hje] using hrange j
  · by_cases hje : j = e
    · exact .inl (hje ▸ hzero)
    · simp [FileSystem.setInode, hje] at hdev'
      exact absurd hdev' hdev

theorem Handled.share (hfit : ∀ j, (fs.inode j).iCount < 65535)
    (hrange : ∀ j, (fs.inode j).iDev < 65536) (hone : (fs.inode i).iCount + 1 < 65535)
    (hnew : new i) (l : List InodeIx) :
    Handled l (i :: l) new fs
      (fs.setInode i { fs.inode i with iCount := ((fs.inode i).iCount + 1) % 65536 }) := by
  have hmod : ((fs.inode i).iCount + 1) % 65536 = (fs.inode i).iCount + 1 :=
    Nat.mod_eq_of_lt (by omega)
  refine ⟨balanced_take hmod l, fun j hj => ?_, fun j => ?_, fun j => ?_, fun j hdev hdev' => ?_⟩
  · by_cases hji : j = i
    · exact absurd (hji ▸ hnew) hj
    · simp [FileSystem.setInode, hji]
  · by_cases hji : j = i
    · simpa [FileSystem.setInode, hji, hmod] using hone
    · simpa [FileSystem.setInode, hji] using hfit j
  · by_cases hji : j = i
    · simpa [FileSystem.setInode, hji] using hrange i
    · simpa [FileSystem.setInode, hji] using hrange j
  · by_cases hji : j = i
    · simp [FileSystem.setInode, hji] at hdev'
      exact absurd hdev' (hji ▸ hdev)
    · simp [FileSystem.setInode, hji] at hdev'
      exact absurd hdev' hdev

theorem Moved.handled {out : Onward} (h : Moved [i] fs fs' out)
    (hheld : out.held = [] ∨ out.held = [i]) (hfit : ∀ j, (fs.inode j).iCount < 65535) :
    Handled [i] out.held new fs fs' := by
  have hmost : ∀ j, (fs'.inode j).iCount ≤ (fs.inode j).iCount := fun j => by
    have hbal := h.balanced j
    cases hheld with
    | inl he =>
      rw [he, List.count_nil] at hbal
      omega
    | inr he =>
      rw [he] at hbal
      omega
  exact ⟨h.balanced, fun j _ => hmost j, fun j => Nat.lt_of_le_of_lt (hmost j) (hfit j),
    h.range, h.device⟩

theorem putStep_ends {pc : PutPc} {out : Onward} (h : putStep i .closed fs pc = some (fs', out)) :
    out = .closed ∨ ∃ pc', out = .at (.put i pc' .closed) := by
  have hrepeat : (putRepeat i .closed fs).2 = .closed ∨
      ∃ pc', (putRepeat i .closed fs).2 = .at (.put i pc' .closed) := by
    unfold putRepeat
    simp only
    split
    · exact .inl rfl
    split
    · exact .inr ⟨.free, rfl⟩
    split
    · exact .inr ⟨.again, rfl⟩
    · exact .inl rfl
  cases pc with
  | wait =>
    simp only [putStep] at h
    split at h
    · exact .inr ⟨.wait, (Prod.mk.inj (Option.some.inj h)).2.symm⟩
    split at h
    · cases h
    split at h
    · split at h
      · exact .inl (Prod.mk.inj (Option.some.inj h)).2.symm
      · exact .inl (Prod.mk.inj (Option.some.inj h)).2.symm
    split at h
    · exact .inl (Prod.mk.inj (Option.some.inj h)).2.symm
    split at h
    · exact .inr ⟨.again, (Prod.mk.inj (Option.some.inj h)).2.symm⟩
    · rw [Option.some.inj h] at hrepeat
      exact hrepeat
  | again =>
    simp only [putStep] at h
    split at h
    · exact .inr ⟨.again, (Prod.mk.inj (Option.some.inj h)).2.symm⟩
    · rw [Option.some.inj h] at hrepeat
      exact hrepeat
  | free =>
    simp only [putStep] at h
    split at h
    · exact .inl (Prod.mk.inj (Option.some.inj h)).2.symm
    split at h
    · cases h
    split at h
    · cases h
    · exact .inl (Prod.mk.inj (Option.some.inj h)).2.symm

structure Moves (pc : SlotPc) (fs fs' : FileSystem) (o : SlotEnd) : Prop where
  handled : Handled pc.held o.held (Takes fs pc) fs fs'
  ok : o.Ok fs'
  waits : ∀ dev nr e, o = .at (.empty dev nr e) → pc = .empty dev nr e ∧ wipes fs pc = none

theorem Handled.searching (h : Handled pc.held [e] (Takes fs pc) fs fs₁)
    (hs : slotScan dev nr e fs₁ = some (fs', o)) : Moves pc fs fs' o := by
  obtain ⟨hscan, hsearch⟩ := h.scan hs
  refine ⟨by rwa [hsearch.held], hsearch.ok fs', fun dev nr e he => ?_⟩
  subst he
  cases hsearch

variable (hfit : ∀ j, (fs.inode j).iCount < 65535) (hrange : ∀ j, (fs.inode j).iDev < 65536)

include hfit hrange in
theorem slotStep_empty (hzero : ∀ i, wipes fs (.empty dev nr e) = some i → (fs.inode i).iCount = 0)
    (h : slotStep fs (.empty dev nr e) = some (fs', o)) : Moves (.empty dev nr e) fs fs' o := by
  by_cases hwait : (fs.inode e).iLock = true ∨ (fs.inode e).iDirt = true
  · simp only [slotStep, if_pos hwait, Option.some.injEq, Prod.mk.injEq] at h
    obtain ⟨rfl, rfl⟩ := h
    refine ⟨.refl hfit hrange _, trivial, fun dev' nr' e' he => ?_⟩
    cases he
    exact ⟨rfl, if_pos hwait⟩
  · have hwipes : wipes fs (.empty dev nr e) = some e := if_neg hwait
    have htake : Handled (SlotPc.empty dev nr e).held [e] (Takes fs (.empty dev nr e)) fs _ :=
      .wipe hfit hrange (hzero e hwipes) (.inl hwipes)
    simp only [slotStep, if_neg hwait] at h
    exact htake.searching h

include hfit hrange in
theorem slotStep_found
    (hshare : ∀ j, shares fs (.found dev nr e i) = some j →
      (fs.inode j).iCount + 1 < 65535 ∧ ((fs.inode j).iMount = true → (mountedOn fs j).isSome))
    (h : slotStep fs (.found dev nr e i) = some (fs', o)) : Moves (.found dev nr e i) fs fs' o := by
  by_cases hlock : (fs.inode i).iLock = true
  · simp only [slotStep, if_pos hlock, Option.some.injEq, Prod.mk.injEq] at h
    obtain ⟨rfl, rfl⟩ := h
    exact ⟨.refl hfit hrange _, trivial, fun _ _ _ he => by cases he⟩
  by_cases hother : (fs.inode i).iDev ≠ dev ∨ (fs.inode i).iNum ≠ nr
  · simp only [slotStep, if_neg hlock, if_pos hother] at h
    exact Handled.searching (.refl hfit hrange [e]) h
  have hshares : shares fs (.found dev nr e i) = some i := if_neg (not_or.mpr ⟨hlock, hother⟩)
  obtain ⟨hone, hmount⟩ := hshare i hshares
  have htake : Handled (SlotPc.found dev nr e i).held [i, e] (Takes fs (.found dev nr e i)) fs _ :=
    .share hfit hrange hone (.inr hshares) [e]
  simp only [slotStep, if_neg hlock, if_neg hother] at h
  split at h
  · rename_i hm
    split at h
    · rename_i hnone
      have hsome : (mountedOn fs i).isSome := hmount hm
      rw [show mountedOn fs i = none from hnone] at hsome
      cases hsome
    · obtain ⟨rfl, rfl⟩ := Prod.mk.inj (Option.some.inj h)
      exact ⟨htake, trivial, fun _ _ _ he => by cases he⟩
  · obtain ⟨rfl, rfl⟩ := Prod.mk.inj (Option.some.inj h)
    exact ⟨htake.perm (List.Perm.swap e i []), trivial, fun _ _ _ he => by cases he⟩

include hfit hrange in
theorem slotStep_put {pc : PutPc} {next : SlotNext} (hpos : (fs.inode i).iCount ≠ 0)
    (hok : (SlotEnd.at (.put i pc next)).Ok fs) (h : slotStep fs (.put i pc next) = some (fs', o)) :
    Moves (.put i pc next) fs fs' o := by
  obtain ⟨⟨fs₁, out⟩, hput, h⟩ := Option.bind_eq_some_iff.mp h
  have hr : Ready (i :: AfterPut.closed.held) fs := by
    refine ⟨fun j hj => ?_, hfit, hrange⟩
    rw [List.mem_singleton.mp hj]
    exact hpos
  have hok' : (CallPc.put i pc .closed).Ok fs := by
    cases pc with
    | wait => trivial
    | again => exact ⟨hok, trivial⟩
    | free => exact ⟨hok, trivial⟩
  have hmoved : Moved [i] fs fs₁ out := putStep_moved hr hok' hput
  cases putStep_ends hput with
  | inl hclosed =>
    subst hclosed
    have hdone : Handled [i] [] (Takes fs (.put i pc next)) fs fs₁ := hmoved.handled (.inl rfl) hfit
    have hheld : Handled (SlotPc.put i pc next).held next.held (Takes fs (.put i pc next)) fs fs₁ :=
      hdone.append next.held
    cases next with
    | done =>
      obtain ⟨rfl, rfl⟩ := Prod.mk.inj (Option.some.inj h)
      exact ⟨hheld, trivial, fun _ _ _ he => by cases he⟩
    | got j =>
      obtain ⟨rfl, rfl⟩ := Prod.mk.inj (Option.some.inj h)
      exact ⟨hheld, trivial, fun _ _ _ he => by cases he⟩
    | scan dev nr e => exact Handled.searching hheld h
  | inr hat =>
    obtain ⟨pc', rfl⟩ := hat
    obtain ⟨rfl, rfl⟩ := Prod.mk.inj (Option.some.inj h)
    have hstays : Handled [i] [i] (Takes fs (.put i pc next)) fs fs₁ :=
      hmoved.handled (.inr rfl) hfit
    refine ⟨hstays.append next.held, ?_, fun _ _ _ he => by cases he⟩
    have hdev := hmoved.ok
    cases pc' with
    | wait => trivial
    | again => exact hdev.1
    | free => exact hdev.1

include hfit hrange in
theorem slotStep_moves (hpos : ∀ i ∈ pc.held, (fs.inode i).iCount ≠ 0) (hok : (SlotEnd.at pc).Ok fs)
    (hzero : ∀ i, wipes fs pc = some i → (fs.inode i).iCount = 0)
    (hshare : ∀ i, shares fs pc = some i →
      (fs.inode i).iCount + 1 < 65535 ∧ ((fs.inode i).iMount = true → (mountedOn fs i).isSome))
    (h : slotStep fs pc = some (fs', o)) : Moves pc fs fs' o := by
  cases pc with
  | empty dev nr e => exact slotStep_empty hfit hrange hzero h
  | found dev nr e i => exact slotStep_found hfit hrange hshare h
  | reading e =>
    obtain ⟨rfl, rfl⟩ := Prod.mk.inj (Option.some.inj h)
    exact ⟨.refl hfit hrange _, trivial, fun _ _ _ he => by cases he⟩
  | put i pc next => exact slotStep_put hfit hrange (hpos i List.mem_cons_self) hok h

section System
variable [Fintype ι] {s t : SlotSystem ι} {p q : ι} {pinned : List InodeIx}

/-- Every reference is counted, and none besides: those of the processes, and the pinned ones that
these calls leave alone. An entry that is waited for is free. -/
structure SlotsCounted (pinned : List InodeIx) (s : SlotSystem ι) : Prop where
  count : ∀ i, (s.fs.inode i).iCount = total s.refs i + pinned.count i
  fit : ∀ i, (s.fs.inode i).iCount < 65535
  range : ∀ i, (s.fs.inode i).iDev < 65536
  free : ∀ p e, s.chosen p = some e → (s.fs.inode e).iCount = 0
  ok : ∀ p pc, s.call p = some pc → (SlotEnd.at pc).Ok s.fs

/-- A table whose counts are those of the references, with no call under way. -/
structure SlotsStart (pinned : List InodeIx) (s : SlotSystem ι) : Prop where
  idle : ∀ p, s.call p = none
  count : ∀ i, (s.fs.inode i).iCount = total s.held i + pinned.count i
  fit : ∀ i, (s.fs.inode i).iCount < 65535
  range : ∀ i, (s.fs.inode i).iDev < 65536

omit [DecidableEq ι] in
theorem SlotsStart.counted (h : SlotsStart pinned s) : SlotsCounted pinned s := by
  have hrefs : s.refs = s.held := by
    funext p
    simp [SlotSystem.refs, h.idle p]
  refine ⟨?_, h.fit, h.range, fun p e hp => ?_, fun p pc hp => ?_⟩
  · rw [hrefs]
    exact h.count
  · simp [SlotSystem.chosen, h.idle p] at hp
  · rw [h.idle p] at hp
    cases hp

omit [DecidableEq ι] in
theorem SlotsCounted.pos (h : SlotsCounted pinned s) (hi : i ∈ s.refs p) :
    (s.fs.inode i).iCount ≠ 0 := by
  have hle := count_le_total s.refs p i
  have hmem := List.count_pos_iff.mpr hi
  rw [h.count i]
  omega

omit [Fintype ι] [DecidableEq ι] in
theorem mem_refs_of_call (hcall : s.call p = some pc) (hi : i ∈ pc.held) : i ∈ s.refs p := by
  refine List.mem_append_right _ ?_
  rw [hcall]
  exact hi

omit [Fintype ι] [DecidableEq ι] in
theorem wipes_chosen (hcall : s.call p = some pc) (hw : wipes s.fs pc = some e) :
    s.chosen p = some e := by
  cases pc with
  | empty dev nr x =>
    by_cases hwait : (s.fs.inode x).iLock = true ∨ (s.fs.inode x).iDirt = true
    · simp [wipes, if_pos hwait] at hw
    · simp only [wipes, if_neg hwait] at hw
      rw [SlotSystem.chosen, hcall]
      exact hw
  | found dev nr x j => cases hw
  | reading x => cases hw
  | put j pc next => cases hw

omit [DecidableEq ι] in
/-- A step inside a call, with what the invariant and the condition say about it. -/
theorem SlotsCounted.moves (h : SlotsCounted pinned s) (hcall : s.call p = some pc)
    (hC : TakesUnchosen s (.go p)) (hst : slotStep s.fs pc = some (fs', o)) : Moves pc s.fs fs' o :=
  slotStep_moves h.fit h.range (fun _ hi => h.pos (mem_refs_of_call hcall hi)) (h.ok p pc hcall)
    (fun e hw => h.free p e (wipes_chosen hcall hw)) (hC pc hcall).2 hst

omit [Fintype ι] in
theorem onward_refs (s : SlotSystem ι) (fs' : FileSystem) (p q : ι) (o : SlotEnd) (i : InodeIx) :
    (({ s with fs := fs' }.onward p o).refs q).count i =
      (Function.update s.refs p (s.held p ++ o.held) q).count i := by
  by_cases hq : q = p
  · subst hq
    rw [Function.update_self]
    cases o with
    | «at» pc => simp [SlotSystem.onward, SlotSystem.refs, SlotEnd.held]
    | returns j =>
      simp only [SlotSystem.onward,
        SlotSystem.refs, SlotEnd.held, Function.update_self, Option.elim, List.append_nil,
        List.count_append, List.count_cons, List.count_nil]
      omega
    | done => simp [SlotSystem.onward, SlotSystem.refs, SlotEnd.held]
  · rw [Function.update_of_ne hq]
    cases o with
    | «at» pc => simp [SlotSystem.onward, SlotSystem.refs, hq]
    | returns j => simp [SlotSystem.onward, SlotSystem.refs, hq]
    | done => simp [SlotSystem.onward, SlotSystem.refs, hq]

omit [Fintype ι] in
theorem onward_fs (s : SlotSystem ι) (p : ι) (o : SlotEnd) : (s.onward p o).fs = s.fs := by
  cases o with
  | «at» pc => rfl
  | returns j => rfl
  | done => rfl

omit [Fintype ι] in
theorem onward_call (s : SlotSystem ι) (p q : ι) (o : SlotEnd) :
    (s.onward p o).call q = if q = p then (match o with | .at pc => some pc | _ => none) else s.call
      q := by
  by_cases hq : q = p
  · subst hq
    cases o with
    | «at» pc => simp [SlotSystem.onward]
    | returns j => simp [SlotSystem.onward]
    | done => simp [SlotSystem.onward]
  · cases o with
    | «at» pc => simp [SlotSystem.onward, hq]
    | returns j => simp [SlotSystem.onward, hq]
    | done => simp [SlotSystem.onward, hq]

theorem SlotEnd.Ok.mono (h : (SlotEnd.at pc).Ok fs)
    (hdev : ∀ i ∈ pc.held, (fs.inode i).iDev ≠ 0 → (fs'.inode i).iDev ≠ 0) :
      (SlotEnd.at pc).Ok fs' := by
  cases pc with
  | empty dev nr e => trivial
  | found dev nr e i => trivial
  | reading e => trivial
  | put i pc next =>
    cases pc with
    | wait => trivial
    | again => exact hdev i List.mem_cons_self h
    | free => exact hdev i List.mem_cons_self h

theorem SlotsCounted.others_ok (h : SlotsCounted pinned s) (hcall : s.call p = some pc)
    (hm : Moves pc s.fs fs' o) (hq : q ≠ p) {pc' : SlotPc} (hcall' : s.call q = some pc') :
    (SlotEnd.at pc').Ok fs' := by
  refine (h.ok q pc' hcall').mono fun i hi hdev hzero => ?_
  have hmem := mem_refs_of_call hcall' hi
  cases hm.handled.device i hdev hzero with
  | inl hfree => exact h.pos hmem hfree
  | inr hone =>
    have hcount := h.count i
    exact hq (sole_holder (by omega : total s.refs i ≤ 1) hmem (mem_refs_of_call hcall hone.2))

theorem SlotsCounted.go (h : SlotsCounted pinned s) (hC : TakesUnchosen s (.go p))
    (hcall : s.call p = some pc) (hm : Moves pc s.fs fs' o) :
    SlotsCounted pinned ({ s with fs := fs' }.onward p o) := by
  refine ⟨fun i => ?_, fun i => ?_, fun i => ?_, fun q e hq => ?_, fun q pc' hq => ?_⟩
  · have htotal : total ({ s with fs := fs' }.onward p o).refs i =
        total (Function.update s.refs p (s.held p ++ o.held)) i :=
      Finset.sum_congr rfl fun q _ => onward_refs s fs' p q o i
    have hupd := total_update s.refs p (s.held p ++ o.held) i
    have hold : s.refs p = s.held p ++ pc.held := by simp [SlotSystem.refs, hcall]
    have hbal := hm.handled.balanced i
    have hcount := h.count i
    rw [onward_fs, htotal]
    simp only [hold, List.count_append] at hupd ⊢
    omega
  · rw [onward_fs]
    exact hm.handled.fit i
  · rw [onward_fs]
    exact hm.handled.range i
  · -- what is waited for was free before, and this step has not taken it
    have hstays : s.chosen q = some e → ¬ Takes s.fs pc e →
        (fs'.inode e).iCount = 0 := fun hfree hno => by
      have hzero := h.free q e hfree
      have hmost := hm.handled.most e hno
      omega
    rw [onward_fs]
    by_cases hqp : q = p
    · subst hqp
      simp only [SlotSystem.chosen, onward_call, if_true] at hq
      cases o with
      | «at» pc' =>
        cases pc' with
        | empty dev nr x =>
          obtain ⟨rfl, hnone⟩ := hm.waits dev nr x rfl
          obtain rfl : x = e := Option.some.inj hq
          refine hstays (by rw [SlotSystem.chosen, hcall]; rfl) fun htakes => ?_
          cases htakes with
          | inl hw =>
            rw [hnone] at hw
            cases hw
          | inr hs => cases hs
        | found dev nr x j => cases hq
        | reading x => cases hq
        | put j pc' next => cases hq
      | returns j => cases hq
      | done => cases hq
    · simp only [SlotSystem.chosen, onward_call, if_neg hqp] at hq
      exact hstays hq fun htakes => (hC pc hcall).1 e htakes q hqp hq
  · rw [onward_call] at hq
    rw [onward_fs]
    by_cases hqp : q = p
    · rw [if_pos hqp] at hq
      have hok := hm.ok
      cases o with
      | «at» pc =>
        obtain rfl := Option.some.inj hq
        exact hok
      | returns j => cases hq
      | done => cases hq
    · rw [if_neg hqp] at hq
      exact h.others_ok hcall hm hqp hq

theorem SlotsCounted.begin (h : SlotsCounted pinned s) (hin : t.fs.inode = s.fs.inode)
    (hrefs : ∀ q i, (t.refs q).count i = (s.refs q).count i)
    (hfree : ∀ e, t.chosen p = some e → (s.fs.inode e).iCount = 0)
    (hother : ∀ q, q ≠ p → t.call q = s.call q)
    (hok : ∀ pc, t.call p = some pc → (SlotEnd.at pc).Ok s.fs) : SlotsCounted pinned t := by
  refine ⟨fun i => ?_, hin ▸ h.fit, hin ▸ h.range, fun q e hq => ?_, fun q pc hq => ?_⟩
  · rw [hin, h.count i]
    exact congrArg (· + _) (Finset.sum_congr rfl fun q _ => (hrefs q i).symm)
  · rw [hin]
    by_cases hqp : q = p
    · exact hfree e (hqp ▸ hq)
    · rw [SlotSystem.chosen, hother q hqp] at hq
      exact h.free q e hq
  · have hdev : ∀ i ∈ pc.held, (s.fs.inode i).iDev ≠ 0 → (t.fs.inode i).iDev ≠ 0 :=
      fun i _ hne => by rwa [hin]
    by_cases hqp : q = p
    · exact (hok pc (hqp ▸ hq)).mono hdev
    · exact (h.ok q pc (hother q hqp ▸ hq)).mono hdev

omit [DecidableEq ι] in
theorem SlotsCounted.wipesFree (h : SlotsCounted pinned s) (a : SlotAct ι) : WipesFree s a := by
  cases a with
  | iget p dev nr => trivial
  | iput p i => trivial
  | io inode => trivial
  | go p =>
    intro pc e hcall hw
    have hzero := h.free p e (wipes_chosen hcall hw)
    refine ⟨⟨hzero, ?_⟩, fun q hq => h.pos hq hzero⟩
    cases pc with
    | empty dev nr x =>
      by_cases hwait : (s.fs.inode x).iLock = true ∨ (s.fs.inode x).iDirt = true
      · simp [wipes, if_pos hwait] at hw
      · simp only [wipes, if_neg hwait] at hw
        obtain rfl := Option.some.inj hw
        simpa [not_or, and_comm] using hwait
    | found dev nr x j => cases hw
    | reading x => cases hw
    | put j pc next => cases hw

theorem SlotsCounted.step {a : SlotAct ι} (h : SlotsCounted pinned s) (hC : TakesUnchosen s a)
    (hst : slotSystemStep s a = some t) : SlotsCounted pinned t := by
  cases a with
  | iget p dev nr =>
    simp only [slotSystemStep] at hst
    by_cases hno : (s.call p).isSome ∨ dev = 0
    · simp [hno] at hst
    · rw [if_neg hno] at hst
      obtain ⟨e, hfound, rfl⟩ := Option.map_eq_some_iff.mp hst
      have hscan := scanInodes_spec s.fs NR_INODE s.fs.lastInode none fun i hi => by cases hi
      simp only [hfound] at hscan
      have hidle : s.call p = none := by simpa using (not_or.mp hno).1
      refine h.begin (p := p) rfl (fun q i => ?_)
        (fun e' he => ?_) (fun q hq => Function.update_of_ne hq ..) fun pc hpc => ?_
      · by_cases hq : q = p
        · simp [SlotSystem.refs, hq, SlotPc.held, hidle]
        · simp [SlotSystem.refs, hq]
      · simp only [SlotSystem.chosen, Function.update_self] at he
        exact Option.some.inj he ▸ hscan
      · simp only [Function.update_self, Option.some.injEq] at hpc
        subst hpc
        trivial
  | iput p i =>
    simp only [slotSystemStep] at hst
    by_cases hno : (s.call p).isSome ∨ i ∉ s.held p
    · simp [hno] at hst
    · rw [if_neg hno] at hst
      obtain rfl := Option.some.inj hst
      obtain ⟨hidle, hmem⟩ := not_or.mp hno
      have hidle : s.call p = none := by simpa using hidle
      have hperm := List.perm_cons_erase (not_not.mp hmem)
      refine h.begin (p := p) rfl (fun q j => ?_) (fun e' he => ?_)
        (fun q hq => Function.update_of_ne hq ..) fun pc hpc => ?_
      · by_cases hq : q = p
        · have hcount := hperm.count_eq j
          simp only [SlotSystem.refs, hq, Function.update_self, hidle, Option.elim,
            SlotPc.held, SlotNext.held,
            List.count_append, List.append_nil, List.count_cons, List.count_nil] at hcount ⊢
          omega
        · simp [SlotSystem.refs, hq]
      · simp [SlotSystem.chosen, SlotPc.chosen] at he
      · simp only [Function.update_self, Option.some.injEq] at hpc
        subst hpc
        trivial
  | go p =>
    obtain ⟨pc, hcall, hst⟩ := Option.bind_eq_some_iff.mp hst
    obtain ⟨r, hr, rfl⟩ := Option.map_eq_some_iff.mp hst
    exact h.go hC hcall (h.moves hcall hC hr)
  | io inode =>
    obtain rfl := Option.some.inj hst
    refine ⟨h.count, h.fit, h.range, h.free, fun q pc hq => ?_⟩
    exact (h.ok q pc hq).mono fun _ _ => id

/-- As long as no process takes an entry that another one waits for in `get_empty_inode`, every
entry that is cleared is free, clean, unlocked and used by nobody. -/
theorem slots_wiped_free (hs : SlotsStart pinned s) {as : List (SlotAct ι)}
    (hC : StepsMeet slotSystemStep TakesUnchosen s as) :
    StepsMeet slotSystemStep WipesFree s as := by
  refine stepsMeet_of_stepsMeet (I := SlotsCounted pinned) (fun s a t h hc hst => ?_) hs.counted hC
  exact ⟨h.wipesFree a, h.step hc hst⟩

end System

/-- Entry 2 is free, and dirty if `dirt` is; the super blocks hold the other entries. -/
def oneFree (dirt : Bool) : SlotSystem Bool where
  fs := { bigState .zero with
    inode := fun i => ⟨.zero, 1, i.val + 3, if i = 2 then 0 else 1, false, i = 2 ∧
      dirt, false, false⟩ }
  held _ := []
  call _ := none

theorem oneFree_start (dirt : Bool) :
    SlotsStart ((List.finRange NR_INODE).filter (· ≠ 2)) (oneFree dirt) := by
  have hcount : ∀ i : InodeIx, (if i = 2 then 0 else 1) = List.count i
      ((List.finRange NR_INODE).filter (· ≠ 2)) := by
    decide +kernel
  refine ⟨fun _ => rfl, fun i => ?_, fun i => ?_, fun i => Nat.lt_of_lt_of_le Nat.one_lt_two
    (by decide)⟩
  · have htotal : total (oneFree dirt).held i = 0 := by simp [total, oneFree]
    rw [htotal, Nat.zero_add]
    exact hcount i
  · have hle : ((oneFree dirt).fs.inode i).iCount ≤ 1 := by
      simp only [oneFree]
      split
      · exact Nat.zero_le 1
      · exact Nat.le_refl 1
    omega

omit [DecidableEq ι] in
theorem call_of_chosen {s : SlotSystem ι} {p : ι} (h : s.chosen p = some e) :
    ∃ dev nr, s.call p = some (.empty dev nr e) := by
  obtain ⟨pc, hcall, hpc⟩ := Option.bind_eq_some_iff.mp h
  cases pc with
  | empty dev nr x => exact ⟨dev, nr, Option.some.inj hpc ▸ hcall⟩
  | found dev nr x j => cases hpc
  | reading x => cases hpc
  | put j pc next => cases hpc

def oneHeld : SlotSystem Bool where
  fs := { (oneFree true).fs with
    inode := fun i => { (oneFree true).fs.inode i with d := DInode.zero.setNlinks 1 } }
  held p := if p then [5] else []
  call _ := none

theorem oneHeld_start :
    SlotsStart ((List.finRange NR_INODE).filter fun i => i ≠ 2 ∧ i ≠ 5) oneHeld := by
  obtain ⟨hidle, -, hfit, hrange⟩ := oneFree_start true
  exact ⟨hidle, by decide +kernel, hfit, hrange⟩

/-- The first process waits for the dirty entry to be written. Meanwhile the second one gives
entry 5 back and has it again for another inode, clean entries first. -/
theorem slots_wiped_free_while_waiting :
    let acts : List (SlotAct Bool) :=
  [.iget false 1 40, .go false, .iput true 5, .go true, .iget true 1 41, .go true,
      .go true, .io fun _ => .zero, .go false, .go false]
    StepsMeet slotSystemStep WipesFree oneHeld acts ∧
      (run slotSystemStep oneHeld acts).map
        (fun t => (t.held false, t.held true, (t.fs.inode 2).iNum, (t.fs.inode 5).iNum)) =
        some ([2], [5], 40, 41) := by
  intro acts
  have hunchosen : StepsMeet slotSystemStep TakesUnchosen oneHeld acts := by decide +kernel
  exact ⟨slots_wiped_free oneHeld_start hunchosen, by decide +kernel⟩

/-- Both processes choose the dirty entry. The first clears it and has it from `iget`; then the
second clears it again. -/
theorem slots_wiped_in_use :
    SlotsStart ((List.finRange NR_INODE).filter (· ≠ 2)) (oneFree true) ∧
      ¬ StepsMeet slotSystemStep WipesFree (oneFree true) [.iget false 1 40, .iget true 1 41,
        .io fun _ => .zero, .go false,
        .go false, .go true] := by
  refine ⟨oneFree_start true, fun h => ?_⟩
  have hpre : (run slotSystemStep (oneFree true) [.iget false 1 40, .iget true 1 41,
    .io fun _ => .zero, .go false,
      .go false]).map (fun t =>
        (t.chosen true, (t.fs.inode 2).iCount, (t.fs.inode 2).iLock, (t.fs.inode 2).iDirt,
        (slotSystemStep t (.go true)).isSome)) = some (some 2, 1, false, false, true) := by
          decide +kernel
  obtain ⟨t, hrun, ht⟩ := Option.map_eq_some_iff.mp hpre
  simp only [Prod.mk.injEq] at ht
  obtain ⟨hchosen, hcount, hlock, hdirt, hgo⟩ := ht
  obtain ⟨u, hu⟩ := Option.isSome_iff_exists.mp hgo
  obtain ⟨dev, nr, hcall⟩ := call_of_chosen hchosen
  have hwipes : wipes t.fs (.empty dev nr 2) = some 2 := by simp [wipes, hlock, hdirt]
  have hlast := (@stepsMeet_append _ _ slotSystemStep _ [_, _, _, _, _] [.go true] _ _ h hrun).2
  have hfree := ((hlast u hu).1 _ 2 hcall hwipes).1.1
  rw [hcount] at hfree
  cases hfree

end Hios.Fs
