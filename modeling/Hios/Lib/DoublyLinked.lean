import Hios.Lib.LinkedList
import Mathlib.Data.List.Cycle

/-! Doubly linked lists in a heap: every node has a link each way. `none` is `NULL`, which has
no links of its own, so a list that ends is a ring that goes through `none` once. -/
namespace Hios.DoublyLinked
variable {α β : Type*}

structure Links (α : Type*) where
  next : α → Option α
  prev : α → Option α

def Links.Joined (L : Links α) (x y : Option α) : Prop :=
  (∀ a, x = some a → L.next a = y) ∧ ∀ b, y = some b → L.prev b = x

def Links.Ring (L : Links α) (l : List (Option α)) : Prop := Cycle.Chain L.Joined l

def Links.Row (L : Links α) (l : List α) : Prop := L.Ring (none :: l.map some)

variable {L L' : Links α} {l m : List (Option α)} {x z : Option α} {a b : α}

theorem isChain_imp_ends {R S : β → β → Prop} {l : List β}
    (H : ∀ x y, x ∈ l.dropLast → y ∈ l.tail → R x y → S x y) (h : l.IsChain R) : l.IsChain S := by
  induction h with grind

/-- A path reads the links out of its nodes but the last, and those back of its nodes but the
first. -/
theorem path_congr (h : l.IsChain L.Joined)
    (hnext : ∀ a, some a ∈ l.dropLast → L'.next a = L.next a)
    (hprev : ∀ a, some a ∈ l.tail → L'.prev a = L.prev a) : l.IsChain L'.Joined := by
  refine isChain_imp_ends (fun x y hx hy hxy => ⟨fun a ha => ?_, fun b hb => ?_⟩) h
  · subst ha
    exact (hnext a hx).trans (hxy.1 a rfl)
  · subst hb
    exact (hprev b hy).trans (hxy.2 b rfl)

theorem ring_iff (hne : l ≠ []) :
    L.Ring l ↔ l.IsChain L.Joined ∧ L.Joined (l.getLast hne) (l.head hne) := by
  obtain ⟨y, m, rfl⟩ := List.exists_cons_of_ne_nil hne
  rw [Links.Ring, Cycle.chain_ne_nil _ hne, List.isChain_cons_cons, and_comm]
  rfl

theorem Links.Ring.congr (h : L.Ring l) (hnext : ∀ a, some a ∈ l → L'.next a = L.next a)
    (hprev : ∀ a, some a ∈ l → L'.prev a = L.prev a) : L'.Ring l := by
  cases l with
  | nil => trivial
  | cons y m =>
    refine path_congr h (fun a ha => hnext a ?_) fun a ha => hprev a ?_
    · have hin := List.mem_of_mem_dropLast ha
      simpa [or_comm] using hin
    · simpa [or_comm] using ha

theorem ring_append_comm : L.Ring (l ++ m) ↔ L.Ring (m ++ l) := by
  have hrot : (↑(l ++ m) : Cycle (Option α)) = ↑(m ++ l) :=
    Cycle.coe_eq_coe.mpr List.isRotated_append
  rw [Links.Ring, hrot]
  rfl

theorem Links.Ring.around (h : L.Ring (some b :: l)) (hne : l ≠ []) :
    L.next b = l.head hne ∧ L.prev b = l.getLast hne ∧ l.IsChain L.Joined := by
  obtain ⟨y, m, rfl⟩ := List.exists_cons_of_ne_nil hne
  obtain ⟨hpath, hlast⟩ := (ring_iff (List.cons_ne_nil _ _)).mp h
  obtain ⟨hfirst, hpath⟩ := List.isChain_cons_cons.mp hpath
  exact ⟨hfirst.1 b rfl, (hlast.2 b rfl).trans (List.getLast_cons hne), hpath⟩

theorem head_notMem_tail {l : List β} (hne : l ≠ []) (hnodup : l.Nodup) : l.head hne ∉ l.tail := by
  obtain ⟨y, m, rfl⟩ := List.exists_cons_of_ne_nil hne
  exact (List.nodup_cons.mp hnodup).1

theorem getLast_notMem_dropLast {l : List β} (hne : l ≠ []) (hnodup : l.Nodup) :
    l.getLast hne ∉ l.dropLast := by
  rw [← List.dropLast_concat_getLast hne, List.nodup_append] at hnodup
  exact fun hin => hnodup.2.2 _ hin _ (List.mem_singleton_self _) rfl

variable [DecidableEq α]

def storeAt (f : α → β) (x : Option α) (v : β) : α → β :=
  match x with
  | none => f
  | some a => Function.update f a v

def Links.unlink (L : Links α) (b : α) : Links α :=
  ⟨storeAt L.next (L.prev b) (L.next b), storeAt L.prev (L.next b) (L.prev b)⟩

def Links.link (L : Links α) (x : Option α) (b : α) (z : Option α) : Links α :=
  ⟨storeAt (Function.update L.next b z) x (some b), storeAt (Function.update L.prev b x) z (some b)⟩

theorem storeAt_of_ne {f : α → β} {v : β} (h : x ≠ some a) : storeAt f x v a = f a := by
  cases x with
  | none => rfl
  | some c => exact Function.update_of_ne (fun e => h (congrArg some e.symm)) v f

theorem storeAt_self {f : α → β} {v : β} (a : α) : storeAt f (some a) v a = v :=
  Function.update_self (f := f) ..

theorem storeAt_same {f : α → β} (x : Option α) (a : α) : storeAt f x (f a) a = f a := by
  by_cases hx : x = some a
  · rw [hx, storeAt_self]
  · exact storeAt_of_ne hx

theorem Links.Ring.unlink (h : L.Ring (some b :: l)) (hne : l ≠ []) (hnodup : l.Nodup) :
    (L.unlink b).Ring l := by
  obtain ⟨hnext, hprev, hpath⟩ := h.around hne
  refine (ring_iff hne).mpr ⟨path_congr hpath (fun a ha => ?_) (fun a ha => ?_), fun a ha => ?_,
    fun a ha => ?_⟩
  · refine storeAt_of_ne fun e => ?_
    exact getLast_notMem_dropLast hne hnodup (hprev.symm.trans e ▸ ha)
  · refine storeAt_of_ne fun e => ?_
    exact head_notMem_tail hne hnodup (hnext.symm.trans e ▸ ha)
  · simp only [Links.unlink, hprev, ha, storeAt_self, hnext]
  · simp only [Links.unlink, hprev, ha, storeAt_self, hnext]

theorem Links.Ring.link (h : L.Ring l) (hne : l ≠ []) (hnodup : l.Nodup) (hb : some b ∉ l) :
    (L.link (l.getLast hne) b (l.head hne)).Ring (some b :: l) := by
  obtain ⟨hpath, -⟩ := (ring_iff hne).mp h
  have hapart : ∀ y ∈ l, y ≠ some b := fun y hy e => hb (e ▸ hy)
  have hold : ∀ a, some a ∈ l → a ≠ b := fun a ha e => hb (e ▸ ha)
  have hafter : (L.link (l.getLast hne) b (l.head hne)).Joined (some b) (l.head hne) := by
    refine ⟨fun a ha => ?_, fun a ha => ?_⟩
    · obtain rfl := Option.some.inj ha
      exact (storeAt_of_ne (hapart _ (List.getLast_mem hne))).trans (Function.update_self ..)
    · simp only [Links.link, ha, storeAt_self]
  have hbefore : (L.link (l.getLast hne) b (l.head hne)).Joined (l.getLast hne) (some b) := by
    refine ⟨fun a ha => ?_, fun a ha => ?_⟩
    · simp only [Links.link, ha, storeAt_self]
    · obtain rfl := Option.some.inj ha
      exact (storeAt_of_ne (hapart _ (List.head_mem hne))).trans (Function.update_self ..)
  have hrest : l.IsChain (L.link (l.getLast hne) b (l.head hne)).Joined := by
    refine path_congr hpath (fun a ha => ?_) fun a ha => ?_
    · have hlast : l.getLast hne ≠ some a := fun e => getLast_notMem_dropLast hne hnodup (e ▸ ha)
      exact (storeAt_of_ne hlast).trans
        (Function.update_of_ne (hold a (List.mem_of_mem_dropLast ha)) ..)
    · have hfirst : l.head hne ≠ some a := fun e => head_notMem_tail hne hnodup (e ▸ ha)
      exact (storeAt_of_ne hfirst).trans
        (Function.update_of_ne (hold a (List.mem_of_mem_tail ha)) ..)
  refine (ring_iff (List.cons_ne_nil _ _)).mpr ⟨?_, ?_⟩
  · obtain ⟨y, m, rfl⟩ := List.exists_cons_of_ne_nil hne
    exact List.isChain_cons_cons.mpr ⟨hafter, hrest⟩
  · rw [List.getLast_cons hne]
    exact hbefore

omit [DecidableEq α] in
theorem Links.Ring.mem (h : L.Ring l) (hb : some b ∈ l) : L.next b ∈ l ∧ L.prev b ∈ l := by
  obtain ⟨u, v, rfl⟩ := List.append_of_mem hb
  have hcut := ring_append_comm.mp h
  by_cases hne : v ++ u = []
  · obtain ⟨rfl, rfl⟩ := List.append_eq_nil_iff.mp hne
    have hself : L.Joined (some b) (some b) := (List.isChain_cons_cons.mp h).1
    exact ⟨hself.1 b rfl ▸ hb, hself.2 b rfl ▸ hb⟩
  · obtain ⟨hnext, hprev, -⟩ := Links.Ring.around (l := v ++ u) (by simpa using hcut) hne
    have hin : ∀ y ∈ v ++ u, y ∈ u ++ some b :: v := by
      intro y hy
      simp only [List.mem_append, List.mem_cons] at hy ⊢
      tauto
    exact ⟨hnext ▸ hin _ (List.head_mem hne), hprev ▸ hin _ (List.getLast_mem hne)⟩

theorem Links.Ring.erase (h : L.Ring l) (hnodup : l.Nodup) (hb : some b ∈ l)
    (hmore : l ≠ [some b]) :
    (L.unlink b).Ring (l.erase (some b)) := by
  obtain ⟨u, v, rfl⟩ := List.append_of_mem hb
  have hu : some b ∉ u :=
    fun hin => (List.nodup_append.mp hnodup).2.2 _ hin _ List.mem_cons_self rfl
  rw [List.erase_append_right _ hu, List.erase_cons_head, ring_append_comm]
  have hcut : L.Ring (some b :: (v ++ u)) := ring_append_comm.mp h
  refine hcut.unlink (fun hnil => hmore ?_) ?_
  · obtain ⟨rfl, rfl⟩ := List.append_eq_nil_iff.mp hnil
    rfl
  · have hperm : (some b :: v ++ u).Nodup := List.perm_append_comm.nodup_iff.mp hnodup
    exact (List.nodup_cons.mp hperm).2

theorem Links.Ring.unlink_other (h : L.Ring l) (hnext : ∀ a, L.next b = some a → some a ∉ l)
    (hprev : ∀ a, L.prev b = some a → some a ∉ l) : (L.unlink b).Ring l :=
  h.congr (fun _ ha => storeAt_of_ne fun e => hprev _ e ha) fun _ ha => storeAt_of_ne fun e =>
    hnext _ e ha

theorem Links.Ring.link_other (h : L.Ring l) (hb : some b ∉ l) (hx : ∀ a, x = some a → some a ∉ l)
    (hz : ∀ a, z = some a → some a ∉ l) : (L.link x b z).Ring l := by
  have hold : ∀ a, some a ∈ l → a ≠ b := fun a ha e => hb (e ▸ ha)
  refine h.congr (fun a ha => ?_) fun a ha => ?_
  · exact (storeAt_of_ne fun e => hx _ e ha).trans (Function.update_of_ne (hold a ha) ..)
  · exact (storeAt_of_ne fun e => hz _ e ha).trans (Function.update_of_ne (hold a ha) ..)

theorem Links.Ring.concat (h : L.Ring l) (hne : l ≠ []) (hnodup : l.Nodup) (hb : some b ∉ l) :
    (L.link (l.getLast hne) b (l.head hne)).Ring (l ++ [some b]) :=
  ring_append_comm.mpr (h.link hne hnodup hb)

section Row
variable {r : List α}

omit [DecidableEq α] in
theorem row_nil (L : Links α) : L.Row [] :=
  (Cycle.chain_singleton _ _).mpr ⟨fun _ ha => (by cases ha), fun _ ha => (by cases ha)⟩

omit [DecidableEq α] in
theorem nodup_row (hnodup : r.Nodup) : (none :: r.map some).Nodup :=
  List.nodup_cons.mpr ⟨by simp, hnodup.map (Option.some_injective α)⟩

omit [DecidableEq α] in
theorem mem_row : some b ∈ none :: r.map some ↔ b ∈ r := by
  simp

theorem Links.Row.erase (h : L.Row r) (hnodup : r.Nodup) (hb : b ∈ r) :
    (L.unlink b).Row (r.erase b) := by
  have hring := Links.Ring.erase h (nodup_row hnodup) (mem_row.mpr hb) (by simp)
  rwa [List.erase_cons_tail (by simp), ← List.map_erase (Option.some_injective α)] at hring

theorem Links.Row.cons (h : L.Row r) (hnodup : r.Nodup) (hb : b ∉ r) :
    (L.link none b r.head?).Row (b :: r) := by
  have hopen : L.Ring (r.map some ++ [none]) := ring_append_comm.mpr h
  have hne : r.map some ++ [none] ≠ [] := by simp
  have hperm : (r.map some ++ [none]).Nodup :=
    (List.perm_append_comm.nodup_iff).mp (nodup_row hnodup)
  have hhead : (r.map some ++ [none]).head hne = r.head? := by
    cases r with
    | nil => rfl
    | cons a r => rfl
  have hring := hopen.link hne hperm (b := b) (by simpa using hb)
  rw [List.getLast_append_singleton, hhead] at hring
  exact ring_append_comm (l := [none]).mpr hring

omit [DecidableEq α] in
theorem path_chain (h : (r.map some ++ [none]).IsChain L.Joined) :
    LinkedList.Chain L.next r.head? r := by
  induction r with
  | nil => rfl
  | cons a r ih =>
    refine ⟨rfl, ?_⟩
    cases r with
    | nil => exact (List.isChain_cons_cons.mp h).1.1 a rfl
    | cons c r =>
      obtain ⟨hac, hrest⟩ := List.isChain_cons_cons.mp h
      rw [hac.1 a rfl]
      exact ih hrest

omit [DecidableEq α] in
theorem Links.Row.chain (h : L.Row r) : LinkedList.Chain L.next r.head? r :=
  path_chain ((Cycle.chain_coe_cons L.Joined none (r.map some)).mp h).tail

end Row

section Tables
variable {ι : Type*} {table : ι → Option α} {row : ι → List α} {k : ι} {first : Option α}
  {r : List α}

structure Rows (L : Links α) (table : ι → Option α) (row : ι → List α) : Prop where
  head : ∀ k, table k = (row k).head?
  linked : ∀ k, L.Row (row k)
  nodup : ∀ k, (row k).Nodup
  apart : ∀ k m a, a ∈ row k → a ∈ row m → k = m

structure CircularList (L : Links α) (first : Option α) (r : List α) : Prop where
  head : first = r.head?
  ring : L.Ring (r.map some)
  nodup : r.Nodup

omit [DecidableEq α] in
theorem Rows.neighbours (h : Rows L table row) (hb : b ∈ row k) :
    (∀ a, L.next b = some a → a ∈ row k) ∧ ∀ a, L.prev b = some a → a ∈ row k := by
  obtain ⟨hnext, hprev⟩ := Links.Ring.mem (h.linked k) (mem_row.mpr hb)
  exact ⟨fun a ha => mem_row.mp (ha ▸ hnext), fun a ha => mem_row.mp (ha ▸ hprev)⟩

omit [DecidableEq α] in
theorem Rows.congr (h : Rows L table row) (hnext : ∀ m, ∀ a ∈ row m, L'.next a = L.next a)
    (hprev : ∀ m, ∀ a ∈ row m, L'.prev a = L.prev a) : Rows L' table row :=
  ⟨h.head, fun m => Links.Ring.congr (h.linked m) (fun a ha => hnext m a (mem_row.mp ha)) fun a
    ha => hprev m a (mem_row.mp ha),
    h.nodup, h.apart⟩

theorem Rows.unlink_loose (h : Rows L table row)
    (hloose : b ∉ row k → L.next b = none ∧ L.prev b = none) {x : α} (hx : ∀ m, x ∉ row m) :
    (L.unlink b).next x = L.next x ∧ (L.unlink b).prev x = L.prev x := by
  by_cases hb : b ∈ row k
  · obtain ⟨hnext, hprev⟩ := h.neighbours hb
    exact ⟨storeAt_of_ne fun e => hx k (hprev x e), storeAt_of_ne fun e => hx k (hnext x e)⟩
  · obtain ⟨hnext, hprev⟩ := hloose hb
    simp only [Links.unlink, hnext, hprev]
    exact ⟨rfl, rfl⟩

theorem Rows.link_loose (h : Rows L table row) {x : α} (hx : ∀ m, x ∉ row m) (hne : x ≠ b) :
    (L.link none b (table k)).next x = L.next x ∧ (L.link none b (table k)).prev x = L.prev x := by
  have hhead : table k ≠ some x :=
    fun e => hx k (List.mem_of_mem_head? (by rw [← h.head k, e]; rfl))
  exact ⟨Function.update_of_ne hne .., (storeAt_of_ne hhead).trans (Function.update_of_ne hne ..)⟩

variable [DecidableEq ι]

omit [DecidableEq α] [DecidableEq ι] in
theorem Rows.outside (h : Rows L table row)
    (hloose : b ∉ row k → L.next b = none ∧ L.prev b = none) {m : ι} (hm : b ∈ row k → m ≠ k) :
    (∀ a, L.next b = some a → some a ∉ none :: (row m).map some) ∧
      ∀ a, L.prev b = some a → some a ∉ none :: (row m).map some := by
  by_cases hb : b ∈ row k
  · obtain ⟨hnext, hprev⟩ := h.neighbours hb
    refine ⟨fun a ha hin => ?_, fun a ha hin => ?_⟩
    · exact hm hb (h.apart m k a (mem_row.mp hin) (hnext a ha))
    · exact hm hb (h.apart m k a (mem_row.mp hin) (hprev a ha))
  · obtain ⟨hnext, hprev⟩ := hloose hb
    simp [hnext, hprev]

theorem Rows.erase (h : Rows L table row) (hloose : b ∉ row k → L.next b = none ∧ L.prev b = none) :
    Rows (L.unlink b) (if table k = some b then Function.update table k (L.next b) else table)
      (Function.update row k ((row k).erase b)) := by
  have hsub : ∀ m a, a ∈ Function.update row k ((row k).erase b) m → a ∈ row m :=
    (Function.forall_update_iff row fun m r => ∀ a, a ∈ r → a ∈ row m).mpr
      ⟨fun a => List.mem_of_mem_erase, fun m _ a ha => ha⟩
  have hother : ∀ m, (b ∈ row k → m ≠ k) → (L.unlink b).Row (row m) := fun m hm =>
    (h.linked m).unlink_other (h.outside hloose hm).1 (h.outside hloose hm).2
  refine ⟨fun m => ?_, ?_, ?_, fun j m a hj hm => h.apart j m a (hsub j a hj) (hsub m a hm)⟩
  · by_cases hm : m = k
    · subst hm
      have hhead := h.head m
      have hchain := (h.linked m).chain
      rw [Function.update_self]
      cases hrow : row m with
      | nil =>
        rw [hrow, List.head?_nil] at hhead
        rw [hhead, if_neg (by simp)]
        exact hhead
      | cons a r =>
        rw [hrow, List.head?_cons] at hhead
        rw [hrow] at hchain
        by_cases ha : a = b
        · subst ha
          rw [if_pos hhead, Function.update_self, List.erase_cons_head]
          exact hchain.2.head?.symm
        · rw [if_neg fun e => ha (Option.some.inj (hhead.symm.trans e)),
            List.erase_cons_tail (by simpa using ha)]
          exact hhead
    · rw [Function.update_of_ne hm, ← h.head m]
      split
      · exact Function.update_of_ne hm ..
      · rfl
  · refine (Function.forall_update_iff row fun _ r => (L.unlink b).Row r).mpr
      ⟨?_, fun m hm => hother m fun _ => hm⟩
    by_cases hb : b ∈ row k
    · exact (h.linked k).erase (h.nodup k) hb
    · rw [List.erase_of_not_mem hb]
      exact hother k fun hin => absurd hin hb
  · exact (Function.forall_update_iff row fun _ r => r.Nodup).mpr
      ⟨(h.nodup k).erase b, fun m _ => h.nodup m⟩

theorem Rows.cons (h : Rows L table row) (hb : ∀ m, b ∉ row m) :
    Rows (L.link none b (table k)) (Function.update table k (some b))
      (Function.update row k (b :: row k)) := by
  have hmem : ∀ m a, a ∈ Function.update row k (b :: row k) m → a ∈ row m ∨ a = b ∧ m = k :=
    (Function.forall_update_iff row fun m r => ∀ a, a ∈ r → a ∈ row m ∨ a = b ∧ m = k).mpr
      ⟨fun a ha => (List.mem_cons.mp ha).symm.imp_right fun e => ⟨e, rfl⟩, fun m _ a ha => .inl ha⟩
  refine ⟨fun m => ?_, ?_, ?_, fun j m a hj hm => ?_⟩
  · by_cases hm : m = k
    · subst hm
      simp only [Function.update_self, List.head?_cons]
    · simp only [Function.update_of_ne hm, h.head m]
  · refine (Function.forall_update_iff row fun _ r => (L.link none b (table k)).Row r).mpr
      ⟨?_, fun m hm => ?_⟩
    · rw [h.head k]
      exact (h.linked k).cons (h.nodup k) (hb k)
    · refine (h.linked m).link_other (fun hin => hb m (mem_row.mp hin))
        (fun a ha => by cases ha) fun a ha hin => ?_
      have hfirst : a ∈ row k := List.mem_of_mem_head? (by rw [← h.head k, ha]; rfl)
      exact hm (h.apart m k a (mem_row.mp hin) hfirst)
  · exact (Function.forall_update_iff row fun _ r => r.Nodup).mpr
      ⟨List.nodup_cons.mpr ⟨hb k, h.nodup k⟩, fun m _ => h.nodup m⟩
  · obtain hold | ⟨rfl, rfl⟩ := hmem j a hj
    · obtain hold' | ⟨rfl, rfl⟩ := hmem m a hm
      · exact h.apart j m a hold hold'
      · exact absurd hold (hb j)
    · obtain hold' | ⟨-, rfl⟩ := hmem m a hm
      · exact absurd hold' (hb m)
      · rfl

structure Table (L : Links α) (table : ι → Option α) (row : ι → List α) (nodes : Set α) :
  Prop extends
    Rows L table row where
  loose : ∀ x ∈ nodes, (∀ m, x ∉ row m) → L.next x = none ∧ L.prev x = none

variable {nodes : Set α}

theorem Table.erase (h : Table L table row nodes) (hb : b ∈ nodes) (hk : ∀ m, b ∈ row m → m = k) :
    Table (L.unlink b) (if table k = some b then Function.update table k (L.next b) else table)
      (Function.update row k ((row k).erase b)) (nodes \ {b}) := by
  have hloose : b ∉ row k → L.next b = none ∧ L.prev b = none := fun hout =>
    h.loose b hb fun m hm => hout (hk m hm ▸ hm)
  refine ⟨h.toRows.erase hloose, fun x hx hout => ?_⟩
  have hold : ∀ m, x ∉ row m := by
    intro m hm
    refine hout m ?_
    by_cases hmk : m = k
    · subst hmk
      rw [Function.update_self]
      exact (List.mem_erase_of_ne hx.2).mpr hm
    · rwa [Function.update_of_ne hmk]
  obtain ⟨hnext, hprev⟩ := h.toRows.unlink_loose hloose hold
  rw [hnext, hprev]
  exact h.loose x hx.1 hold

theorem Table.notMem_erase (h : Table L table row nodes) (hk : ∀ m, b ∈ row m → m = k) (m : ι) :
    b ∉ Function.update row k ((row k).erase b) m := by
  by_cases hmk : m = k
  · subst hmk
    rw [Function.update_self]
    exact fun hin => ((h.nodup m).mem_erase_iff.mp hin).1 rfl
  · rw [Function.update_of_ne hmk]
    exact fun hin => hmk (hk m hin)

theorem Table.cons (h : Table L table row (nodes \ {b})) (hb : ∀ m, b ∉ row m) :
    Table (L.link none b (table k)) (Function.update table k (some b))
      (Function.update row k (b :: row k)) nodes := by
  refine ⟨h.toRows.cons hb, fun x hx hout => ?_⟩
  have hne : x ≠ b := fun e => hout k (by rw [e, Function.update_self]; exact List.mem_cons_self)
  have hold : ∀ m, x ∉ row m := by
    intro m hm
    refine hout m ?_
    by_cases hmk : m = k
    · subst hmk
      rw [Function.update_self]
      exact List.mem_cons_of_mem b hm
    · rwa [Function.update_of_ne hmk]
  obtain ⟨hnext, hprev⟩ := h.toRows.link_loose (k := k) hold hne
  rw [hnext, hprev]
  exact h.loose x ⟨hx, hne⟩ hold

omit [DecidableEq ι] in
theorem Table.clear (h : Table L table row (nodes \ {b})) (hb : ∀ m, b ∉ row m) :
    Table ⟨Function.update L.next b none, Function.update L.prev b none⟩ table row nodes := by
  have hne : ∀ m, ∀ a ∈ row m, a ≠ b := fun m a ha e => hb m (e ▸ ha)
  refine ⟨h.toRows.congr (fun m a ha => Function.update_of_ne (hne m a ha) ..) fun m a ha =>
    Function.update_of_ne (hne m a ha) .., fun x hx hout => ?_⟩
  by_cases hxb : x = b
  · subst hxb
    simp only [Function.update_self, and_self]
  · simp only [Function.update_of_ne hxb]
    exact h.loose x ⟨hx, hxb⟩ hout

omit [DecidableEq ι] in
theorem CircularList.first_erase (h : CircularList L first r) (hne : r.erase b ≠ []) :
    (if first = some b then L.next b else first) = some ((r.erase b).head hne) := by
  cases r with
  | nil => exact absurd rfl hne
  | cons a r =>
    have hfirst : first = some a := h.head
    by_cases ha : a = b
    · subst ha
      simp only [List.erase_cons_head] at hne ⊢
      have hnext := (Links.Ring.around (l := r.map some) h.ring fun e =>
        hne (List.map_eq_nil_iff.mp e)).1
      rw [if_pos hfirst, hnext, List.head_map]
    · simp only [List.erase_cons_tail (show ¬ (a == b) = true by simpa using ha), List.head_cons]
      exact (if_neg fun e => ha (Option.some.inj (hfirst.symm.trans e))).trans hfirst

omit [DecidableEq ι] in
theorem CircularList.moveToEnd (h : CircularList L first r) (hb : b ∈ r) :
    ∃ f, (if first = some b then L.next b else first) = some f ∧ (L.unlink b).prev f ≠ none ∧
      CircularList ((L.unlink b).link ((L.unlink b).prev f) b (some f)) (some f)
        (r.erase b ++ [b]) := by
  have hnodup : (r.map some).Nodup := h.nodup.map (Option.some_injective α)
  have hfirst := h.head
  by_cases hone : r = [b]
  · subst hone
    obtain ⟨hnext, hprev⟩ := (Cycle.chain_singleton _ _).mp h.ring
    have hprev' : (L.unlink b).prev b = some b := by
      simp only [Links.unlink, hnext b rfl, hprev b rfl, storeAt_self]
    refine ⟨b, (if_pos hfirst).trans (hnext b rfl), by simp [hprev'], ?_⟩
    rw [hprev', List.erase_cons_head]
    refine ⟨rfl, (Cycle.chain_singleton _ _).mpr ⟨fun a ha => ?_, fun a ha => ?_⟩,
      List.nodup_singleton b⟩
    · obtain rfl := Option.some.inj ha
      exact storeAt_self b
    · obtain rfl := Option.some.inj ha
      exact storeAt_self b
  · have hmore : r.map some ≠ [some b] :=
      fun e => hone (List.map_injective_iff.mpr (Option.some_injective α) e)
    have hring := h.ring.erase hnodup (List.mem_map_of_mem hb) hmore
    rw [← List.map_erase (Option.some_injective α)] at hring
    have hnodup' : ((r.erase b).map some).Nodup := (h.nodup.erase b).map (Option.some_injective α)
    have hrest : b ∉ r.erase b := fun hin => (h.nodup.mem_erase_iff.mp hin).1 rfl
    have hne : r.erase b ≠ [] := fun hnil => by
      obtain hr | hr := List.erase_eq_nil_iff.mp hnil
      · exact List.ne_nil_of_mem hb hr
      · exact hone hr
    have hnem : (r.erase b).map some ≠ [] := fun e => hne (List.map_eq_nil_iff.mp e)
    have hhead : ((r.erase b).map some).head hnem = some ((r.erase b).head hne) := List.head_map ..
    have hlast := ((ring_iff hnem).mp hring).2.2 _ hhead
    refine ⟨(r.erase b).head hne, h.first_erase hne, ?_, ?_⟩
    · rw [hlast, List.getLast_map]
      exact Option.some_ne_none _
    · refine ⟨?_, ?_, ?_⟩
      · rw [List.head?_append_of_ne_nil _ hne, List.head?_eq_some_head]
      · rw [hlast, ← hhead, List.map_append]
        exact hring.concat hnem hnodup' fun hin => hrest (by simpa using hin)
      · exact (h.nodup.erase b).append (List.nodup_singleton b) (by simpa using hrest)

end Tables

end Hios.DoublyLinked
