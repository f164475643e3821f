import Mathlib.Data.List.Nodup
import Mathlib.Logic.Function.Basic

/-! Singly linked lists in a heap: `next` holds the link of each node, and a
`NULL` link ends the list. -/
namespace Hios.LinkedList
variable {ι : Type*}

def Chain (next : ι → Option ι) : Option ι → List ι → Prop
  | h, [] => h = none
  | h, x :: xs => h = some x ∧ Chain next (next x) xs

@[simp] theorem chain_nil {next : ι → Option ι} {h : Option ι} : Chain next h [] ↔ h = none := .rfl

@[simp] theorem chain_cons {next : ι → Option ι} {h : Option ι} {x : ι} {xs : List ι} :
    Chain next h (x :: xs) ↔ h = some x ∧ Chain next (next x) xs := .rfl

theorem Chain.congr {next next' : ι → Option ι} {h : Option ι} {l : List ι}
    (hl : Chain next h l) (heq : ∀ x ∈ l, next' x = next x) : Chain next' h l := by
  induction l generalizing h with
  | nil => exact hl
  | cons x xs ih =>
    refine ⟨hl.1, ?_⟩
    rw [heq x List.mem_cons_self]
    exact ih hl.2 fun y hy => heq y (List.mem_cons_of_mem x hy)

theorem Chain.head? {next : ι → Option ι} {h : Option ι} {l : List ι} (hl : Chain next h l) :
    l.head? = h := by
  cases l with
  | nil => exact hl.symm
  | cons x xs => exact hl.1.symm

theorem Chain.unique {next : ι → Option ι} {h : Option ι} {l m : List ι}
    (hl : Chain next h l) (hm : Chain next h m) : l = m := by
  induction l generalizing h m with
  | nil => cases m with
    | nil => rfl
    | cons y ys => simp_all
  | cons x xs ih => cases m with
    | nil => simp_all
    | cons y ys =>
      obtain rfl : x = y := Option.some.inj (hl.1.symm.trans hm.1)
      rw [ih hl.2 hm.2]

def walk (next : ι → Option ι) : Nat → Option ι → List ι
  | 0, _ => []
  | _ + 1, none => []
  | n + 1, some x => x :: walk next n (next x)

theorem Chain.walk_eq {next : ι → Option ι} {h : Option ι} {l : List ι} (hl : Chain next h l) :
    ∀ n, l.length ≤ n → walk next n h = l := by
  induction l generalizing h with
  | nil =>
    intro n _
    obtain rfl : h = none := hl
    cases n with
    | zero => rfl
    | succ n => rfl
  | cons x xs ih =>
    intro n hn
    obtain rfl : h = some x := hl.1
    cases n with
    | zero => simp at hn
    | succ n => rw [walk, ih hl.2 n (by simpa using hn)]

variable [DecidableEq ι]

/-- `y->next = x->next; x->next = y`. -/
def spliceAfter (next : ι → Option ι) (x y : ι) : ι → Option ι :=
  Function.update (Function.update next y (next x)) x (some y)

theorem spliceAfter_of_ne {next : ι → Option ι} {x y z : ι} (hx : z ≠ x) (hy : z ≠ y) :
    spliceAfter next x y z = next z := by
  simp [spliceAfter, hx, hy]

theorem Chain.splice {next : ι → Option ι} {h : Option ι} {a b : List ι} {x y : ι}
    (hl : Chain next h (a ++ x :: b)) (hnd : (a ++ x :: b).Nodup) (hy : y ∉ a ++ x :: b) :
    Chain (spliceAfter next x y) h (a ++ x :: y :: b) := by
  induction a generalizing h with
  | nil =>
    simp only [List.nil_append, List.nodup_cons, List.mem_cons, not_or] at hnd hy
    have hb : Chain (spliceAfter next x y) (next x) b := by
      refine hl.2.congr fun z hz => spliceAfter_of_ne ?_ ?_
      · rintro rfl
        exact hnd.1 hz
      · rintro rfl
        exact hy.2 hz
    refine ⟨hl.1, by simp [spliceAfter], ?_⟩
    simpa [spliceAfter, hy.1] using hb
  | cons w a ih =>
    simp only [List.cons_append, List.nodup_cons, List.mem_cons, not_or] at hnd hy
    have hwx : w ≠ x := fun e => hnd.1 (by simp [e])
    refine ⟨hl.1, ?_⟩
    rw [spliceAfter_of_ne hwx (Ne.symm hy.1)]
    exact ih hl.2 hnd.2 hy.2

end Hios.LinkedList
