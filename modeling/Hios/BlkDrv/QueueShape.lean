import Hios.BlkDrv.Elevator
import Hios.BlkDrv.Request
import Hios.Lib.Run
import Mathlib.Data.Fintype.Card
import Mathlib.Data.Prod.Lex

/-! The shape of the device queues over runs of `add_request`, `end_request`
and the head's advance in `read_intr`. -/
namespace Hios.BlkDrv
open Hios.LinkedList Hios.Elevator Hios.Run
variable {β δ : Type}

def Request.key (r : Request β) : Nat ×ₗ Int ×ₗ Nat := toLex (r.cmd, toLex (r.dev, r.sector))

theorem inOrder_iff_key_lt {r₁ r₂ : Request β} : inOrder r₁ r₂ ↔ r₁.key < r₂.key := by
  simp [inOrder, Request.key, Prod.Lex.lt_iff]

theorem key_eq_iff {r₁ r₂ : Request β} :
    r₁.key = r₂.key ↔ r₁.cmd = r₂.cmd ∧ r₁.dev = r₂.dev ∧ r₁.sector = r₂.sector := by
  simp [Request.key]

def slotKey (io : Io β δ) (i : Slot) : Nat ×ₗ Int ×ₗ Nat := (io.request i).key

/-- The queues, and for each slot the device it was added to and not yet ended
on. -/
structure Queues (β δ : Type) where
  io : Io β δ
  owner : Slot → Option Nat

inductive QueueAct (β : Type) where
  | add (major : Nat) (req : Slot) (dev rw blocknr : Nat) (bh : Option β)
  | endRequest (major : Nat) (uptodate : Bool)
  | readIntr (major : Nat)

/-- What `make_request` and the run promise of a new request: its slot is free,
and no request on the queue has its command, device and sector. -/
def MayAdd (s : Queues β δ) (major : Nat) (req : Slot) (dev rw blocknr : Nat) : Prop :=
  (s.io.request req).dev < 0 ∧
    ∀ i, s.owner i = some major →
      ¬ ((s.io.request i).cmd = rw ∧ (s.io.request i).dev = dev ∧
        (s.io.request i).sector = blocknr * 2 % 2 ^ 32)

instance (s : Queues β δ) (major : Nat) (req : Slot) (dev rw blocknr : Nat) :
    Decidable (MayAdd s major req dev rw blocknr) := inferInstanceAs (Decidable (_ ∧ _))

def release (major : Nat) (s : Queues β δ) (io : Io β δ) : Queues β δ :=
  match s.io.currentRequest major with
  | none => ⟨io, s.owner⟩
  | some c =>
    if (io.request c).dev < 0 then ⟨io, Function.update s.owner c none⟩ else ⟨io, s.owner⟩

def queueStep [DecidableEq β] (s : Queues β δ) : QueueAct β → Option (Queues β δ)
  | .add major req dev rw blocknr bh =>
    if MayAdd s major req dev rw blocknr then
      (addRequest major req (fillRequest req dev rw blocknr bh s.io)).map
        fun io => ⟨io, Function.update s.owner req (some major)⟩
    else none
  | .endRequest major uptodate => (endRequest major uptodate s.io).map (release major s)
  | .readIntr major => (readIntrAdvance major s.io).map (release major s)

def initQueues [DecidableEq β] (bh : β → Hios.Fs.BufferHead β δ) (request : Slot → Request β)
    (requestFn : Nat → Bool) : Queues β δ :=
  ⟨blkDevInit ⟨bh, request, fun _ => none, requestFn⟩, fun _ => none⟩

/-- The queue of one device: acyclic, each outstanding request on it exactly
once, at most two ascending runs. -/
def QueueShape (s : Queues β δ) (major : Nat) : Prop :=
  ∃ l, Chain s.io.next (s.io.currentRequest major) l ∧ l.Nodup ∧
    (∀ i, i ∈ l ↔ s.owner i = some major) ∧ TwoRuns (slotKey s.io) l

theorem findPlace_eq_insert (request : Slot → Request β) (req : Slot) (l : List Slot) :
    ∀ (x : Slot) (fuel : Nat), Chain (fun i => (request i).next) (some x) (x :: l) →
      (x :: l).length ≤ fuel →
      ∃ a y b, x :: l = a ++ y :: b ∧ findPlace request req fuel x = some y ∧
        insertReq (fun i => (request i).key) req (x :: l) = a ++ y :: req :: b := by
  induction l with
  | nil =>
    intro x fuel hl hfuel
    obtain ⟨fuel, rfl⟩ : ∃ k, fuel = k + 1 := ⟨fuel - 1, by simp at hfuel; omega⟩
    have hx : (request x).next = none := hl.2
    exact ⟨[], x, [], rfl, by simp [findPlace, hx], rfl⟩
  | cons y l ih =>
    intro x fuel hl hfuel
    obtain ⟨fuel, rfl⟩ : ∃ k, fuel = k + 1 := ⟨fuel - 1, by simp at hfuel; omega⟩
    have hx : (request x).next = some y := hl.2.1
    by_cases hfit : Fits (fun i => (request i).key) req x y
    · refine ⟨[], x, y :: l, rfl, ?_, by simp [insertReq, hfit]⟩
      simp only [findPlace, hx, inOrder_iff_key_lt]
      exact if_pos hfit
    · obtain ⟨a, z, b, hsplit, hplace, hins⟩ :=
        ih y fuel ⟨rfl, hl.2.2⟩ (by simpa using hfuel)
      refine ⟨x :: a, z, b, by rw [hsplit, List.cons_append], ?_, ?_⟩
      · simp only [findPlace, hx, inOrder_iff_key_lt]
        exact (if_neg hfit).trans hplace
      · rw [insertReq, if_neg hfit, hins, List.cons_append]

theorem length_le_of_nodup {l : List Slot} (h : l.Nodup) : l.length ≤ NR_REQUEST := by
  simpa using List.Nodup.length_le_card h

/-- `io'` differs from `io` in the `next` fields of `req` and of nodes of `l` only. -/
structure OnlyLinks (io io' : Io β δ) (req : Slot) (l : List Slot) : Prop where
  fields : ∀ i, ∃ n, io'.request i = { io.request i with next := n }
  others : ∀ i, i ∉ l → i ≠ req → io'.request i = io.request i

theorem OnlyLinks.slotKey_eq {io io' : Io β δ} {req : Slot} {l : List Slot}
    (h : OnlyLinks io io' req l) : slotKey io' = slotKey io := by
  funext i
  obtain ⟨n, hn⟩ := h.fields i
  simp [slotKey, hn, Request.key]

theorem onlyLinks_setRequest (io : Io β δ) (req : Slot) (l : List Slot) :
    OnlyLinks io (io.setRequest req { io.request req with next := none }) req l := by
  refine ⟨fun i => ?_, fun i _ hi => by simp [Io.setRequest, hi]⟩
  by_cases hi : i = req
  · exact ⟨none, by simp [Io.setRequest, hi]⟩
  · exact ⟨(io.request i).next, by simp [Io.setRequest, hi]⟩

theorem linkAfter_next {io : Io β δ} {tmp req : Slot} (h : tmp ≠ req) :
    (io.linkAfter tmp req).next = spliceAfter io.next tmp req := by
  funext i
  by_cases ht : i = tmp
  · simp [Io.next, Io.linkAfter, Io.setRequest, spliceAfter, ht]
  · by_cases hr : i = req
    · simp [Io.next, Io.linkAfter, Io.setRequest, spliceAfter, hr, Ne.symm h]
    · simp [Io.next, Io.linkAfter, Io.setRequest, spliceAfter, hr, ht]

theorem onlyLinks_linkAfter {io : Io β δ} {tmp req : Slot} {l : List Slot} (h : tmp ≠ req)
    (ht : tmp ∈ l) : OnlyLinks io (io.linkAfter tmp req) req l := by
  refine ⟨fun i => ?_, fun i hi hr => ?_⟩
  · by_cases hit : i = tmp
    · exact ⟨some req, by simp [Io.linkAfter, Io.setRequest, hit, h]⟩
    · by_cases hr : i = req
      · subst hr
        exact ⟨io.next tmp, by simp [Io.linkAfter, Io.setRequest, hit, Io.next]⟩
      · exact ⟨(io.request i).next, by simp [Io.linkAfter, Io.setRequest, hit, hr]⟩
  · have hit : i ≠ tmp := fun e => hi (e ▸ ht)
    simp [Io.linkAfter, Io.setRequest, hit, hr]

theorem OnlyLinks.trans {io io' io'' : Io β δ} {req : Slot} {l : List Slot}
    (h : OnlyLinks io io' req l) (h' : OnlyLinks io' io'' req l) : OnlyLinks io io'' req l := by
  refine ⟨fun i => ?_, fun i hi hr => (h'.others i hi hr).trans (h.others i hi hr)⟩
  obtain ⟨n, hn⟩ := h.fields i
  obtain ⟨m, hm⟩ := h'.fields i
  exact ⟨m, by rw [hm, hn]⟩

theorem OnlyLinks.of_request_eq {io io' io'' : Io β δ} {req : Slot} {l : List Slot}
    (h : OnlyLinks io io' req l) (heq : io''.request = io'.request) : OnlyLinks io io'' req l :=
  ⟨fun i => heq ▸ h.fields i, fun i hi hr => heq ▸ h.others i hi hr⟩

variable [DecidableEq β]

@[simp] theorem cleanBh_request (io : Io β δ) (b : Option β) :
    (io.cleanBh b).request = io.request := by cases b <;> rfl

@[simp] theorem cleanBh_currentRequest (io : Io β δ) (b : Option β) :
    (io.cleanBh b).currentRequest = io.currentRequest := by cases b <;> rfl

@[simp] theorem finishBh_request (io : Io β δ) (b : Option β) (u : Bool) :
    (io.finishBh b u).request = io.request := by cases b <;> rfl

@[simp] theorem finishBh_currentRequest (io : Io β δ) (b : Option β) (u : Bool) :
    (io.finishBh b u).currentRequest = io.currentRequest := by cases b <;> rfl

/-- `add_request` inserts by the elevator's rule, touches only links, and never
runs out of rounds. -/
theorem addRequest_eq_insert {io : Io β δ} {major : Nat} {req : Slot} {l : List Slot}
    (hl : Chain io.next (io.currentRequest major) l) (hnd : l.Nodup) (hreq : req ∉ l) :
    ∃ io', addRequest major req io = some io' ∧ OnlyLinks io io' req l ∧
      Chain io'.next (io'.currentRequest major) (insertReq (slotKey io) req l) ∧
      io'.currentRequest =
        Function.update io.currentRequest major (some ((io.currentRequest major).getD req)) := by
  set io₁ := io.setRequest req { io.request req with next := none } with hio₁
  set io₂ := io₁.cleanBh (io₁.request req).bh with hio₂
  have hlinks : OnlyLinks io io₂ req l :=
    (onlyLinks_setRequest io req l).of_request_eq (cleanBh_request ..)
  have hcur : io₂.currentRequest = io.currentRequest := cleanBh_currentRequest ..
  cases l with
  | nil =>
    have hc : io.currentRequest major = none := hl
    refine ⟨io₂.setCurrent major (some req), ?_, hlinks.of_request_eq rfl, ?_, ?_⟩
    · simp [addRequest, ← hio₁, ← hio₂, hcur, hc]
    · have hnext : (io₂.request req).next = none := by simp [hio₂, hio₁, Io.setRequest]
      simpa [insertReq, Io.setCurrent, Io.next] using hnext
    · simp [Io.setCurrent, hcur, hc]
  | cons x l =>
    have hc : io.currentRequest major = some x := hl.1
    have hchain : Chain io₂.next (some x) (x :: l) := by
      rw [← hc]
      refine hl.congr fun i hi => ?_
      have hir : i ≠ req := fun e => hreq (e ▸ hi)
      simp [Io.next, hio₂, hio₁, Io.setRequest, hir]
    obtain ⟨a, y, b, hsplit, hplace, hins⟩ :=
      findPlace_eq_insert io₂.request req l x NR_REQUEST hchain (length_le_of_nodup hnd)
    have hy : y ∈ x :: l := by simp [hsplit]
    have hyreq : y ≠ req := fun e => hreq (e ▸ hy)
    refine ⟨io₂.linkAfter y req, ?_, hlinks.trans (onlyLinks_linkAfter hyreq hy), ?_, ?_⟩
    · simp [addRequest, ← hio₁, ← hio₂, hcur, hc, hplace]
    · change Chain _ (io₂.currentRequest major) _
      rw [← hlinks.slotKey_eq, show insertReq (slotKey io₂) req (x :: l) = _ from hins, hcur, hc,
        linkAfter_next hyreq]
      exact Chain.splice (hsplit ▸ hchain) (hsplit ▸ hnd) (hsplit ▸ hreq)
    · change io₂.currentRequest = _
      rw [hcur, hc, Option.getD_some, ← hc, Function.update_eq_self]

def Fresh (r : Request β) : Prop := r.sector % 2 = 0 ∧ r.sector < 2 ^ 32 ∧ r.nrSectors = 2

def Half (r : Request β) : Prop := r.sector % 2 = 1 ∧ r.sector < 2 ^ 32 ∧ r.nrSectors = 1

/-- What the steps keep of the queue `l` of one device: only the head can have
an odd sector, so it never catches up with the key of another request. -/
structure QueueInv (s : Queues β δ) (major : Nat) (l : List Slot) : Prop where
  chain : Chain s.io.next (s.io.currentRequest major) l
  nodup : l.Nodup
  mem : ∀ i, i ∈ l ↔ s.owner i = some major
  runs : TwoRuns (slotKey s.io) l
  tail : ∀ i ∈ l.tail, Fresh (s.io.request i)
  head : ∀ i ∈ l, Fresh (s.io.request i) ∨ Half (s.io.request i)
  taken : ∀ i ∈ l, 0 ≤ (s.io.request i).dev

def QueuesInv (s : Queues β δ) : Prop := ∀ major, ∃ l, QueueInv s major l

omit [DecidableEq β] in
theorem QueueInv.shape {s : Queues β δ} {major : Nat} {l : List Slot} (h : QueueInv s major l) :
    QueueShape s major := ⟨l, h.chain, h.nodup, h.mem, h.runs⟩

omit [DecidableEq β] in
theorem QueueInv.frame {s t : Queues β δ} {major : Nat} {l : List Slot} (h : QueueInv s major l)
    (hreq : ∀ i ∈ l, t.io.request i = s.io.request i)
    (hcur : t.io.currentRequest major = s.io.currentRequest major)
    (howner : ∀ i, t.owner i = some major ↔ s.owner i = some major) : QueueInv t major l := by
  refine ⟨?_, h.nodup, fun i => (h.mem i).trans (howner i).symm, ?_, ?_, ?_, ?_⟩
  · rw [hcur]
    exact h.chain.congr fun i hi => by simp [Io.next, hreq i hi]
  · exact h.runs.congr fun i hi => by simp [slotKey, hreq i hi]
  · intro i hi
    rw [hreq i (List.mem_of_mem_tail hi)]
    exact h.tail i hi
  · intro i hi
    rw [hreq i hi]
    exact h.head i hi
  · intro i hi
    rw [hreq i hi]
    exact h.taken i hi

omit [DecidableEq β] in
theorem QueuesInv.not_owned {s : Queues β δ} (h : QueuesInv s) {req : Slot}
    (hfree : (s.io.request req).dev < 0) (major : Nat) : s.owner req ≠ some major := by
  intro ho
  obtain ⟨l, hl⟩ := h major
  have := hl.taken req ((hl.mem req).mpr ho)
  omega

omit [DecidableEq β] in
theorem fillRequest_request (req : Slot) (dev rw blocknr : Nat) (b : Option β) (io : Io β δ)
    {i : Slot} (hi : i ≠ req) : (fillRequest req dev rw blocknr b io).request i = io.request i := by
  simp [fillRequest, Io.setRequest, hi]

omit [DecidableEq β] in
theorem fresh_fillRequest (req : Slot) (dev rw blocknr : Nat) (b : Option β) (io : Io β δ) :
    Fresh ((fillRequest req dev rw blocknr b io).request req) := by
  simp [Fresh, fillRequest, Io.setRequest]
  omega

omit [DecidableEq β] in
theorem OnlyLinks.fresh {io io' : Io β δ} {req i : Slot} {l : List Slot}
    (h : OnlyLinks io io' req l) (hi : Fresh (io.request i)) : Fresh (io'.request i) := by
  obtain ⟨n, hn⟩ := h.fields i
  simpa [Fresh, hn] using hi

omit [DecidableEq β] in
theorem OnlyLinks.fresh_or_half {io io' : Io β δ} {req i : Slot} {l : List Slot}
    (h : OnlyLinks io io' req l) (hi : Fresh (io.request i) ∨ Half (io.request i)) :
    Fresh (io'.request i) ∨ Half (io'.request i) := by
  obtain ⟨n, hn⟩ := h.fields i
  simpa [Fresh, Half, hn] using hi

omit [DecidableEq β] in
theorem OnlyLinks.dev_eq {io io' : Io β δ} {req i : Slot} {l : List Slot}
    (h : OnlyLinks io io' req l) : (io'.request i).dev = (io.request i).dev := by
  obtain ⟨n, hn⟩ := h.fields i
  simp [hn]

theorem mem_tail_insertReq {key : Slot → Nat ×ₗ Int ×ₗ Nat} {req i : Slot} {l : List Slot}
    (hi : i ∈ (insertReq key req l).tail) : i = req ∨ i ∈ l.tail := by
  cases l with
  | nil => simp [insertReq] at hi
  | cons x l =>
    obtain ⟨m, hm⟩ := insert_cons key req x l
    have hperm : m.Perm (req :: l) := by
      have h := (insert_perm key req (x :: l)).trans (.swap x req l)
      rw [hm] at h
      exact h.cons_inv
    rw [hm] at hi
    simpa using hperm.mem_iff.mp hi

omit [DecidableEq β] in
theorem fillRequest_same {req : Slot} {dev rw blocknr : Nat} {b : Option β} {io : Io β δ}
    {l : List Slot} (hreq : req ∉ l) :
    ∀ i ∈ l, (fillRequest req dev rw blocknr b io).request i = io.request i :=
  fun _ hi => fillRequest_request _ _ _ _ _ _ fun e => hreq (e ▸ hi)

omit [DecidableEq β] in
theorem QueueInv.fill_chain {s : Queues β δ} {major : Nat} {req : Slot} {dev rw blocknr : Nat}
    {b : Option β} {l : List Slot} (h : QueueInv s major l) (hreq : req ∉ l) :
    Chain (fillRequest req dev rw blocknr b s.io).next
      ((fillRequest req dev rw blocknr b s.io).currentRequest major) l :=
  h.chain.congr fun i hi => by simp only [Io.next, fillRequest_same hreq i hi]

theorem mayAdd_of_step {s t : Queues β δ} {major : Nat} {req : Slot} {dev rw blocknr : Nat}
    {b : Option β} (hst : queueStep s (.add major req dev rw blocknr b) = some t) :
    MayAdd s major req dev rw blocknr := by
  by_contra hno
  simp [queueStep, hno] at hst

theorem queuesInv_add {s : Queues β δ} {major : Nat} {req : Slot} {dev rw blocknr : Nat}
    {b : Option β} (h : QueuesInv s) (hadd : MayAdd s major req dev rw blocknr) :
    ∃ t, queueStep s (.add major req dev rw blocknr b) = some t ∧ QueuesInv t ∧
      ∀ m c, s.io.currentRequest m = some c → t.io.currentRequest m = some c := by
  set io := fillRequest req dev rw blocknr b s.io with hio
  obtain ⟨l, hl⟩ := h major
  have hfree : ∀ m, s.owner req ≠ some m := h.not_owned hadd.1
  have hreq : req ∉ l := fun hm => hfree major ((hl.mem req).mp hm)
  have hsame : ∀ i ∈ l, io.request i = s.io.request i := fillRequest_same hreq
  have hchain : Chain io.next (io.currentRequest major) l := hl.fill_chain hreq
  obtain ⟨io', hio', hlinks, hchain', hcur⟩ := addRequest_eq_insert hchain hl.nodup hreq
  have hstep : queueStep s (.add major req dev rw blocknr b) =
      some ⟨io', Function.update s.owner req (some major)⟩ := by
    simp [queueStep, hadd, ← hio, hio']
  have hfresh : Fresh (io'.request req) := hlinks.fresh (fresh_fillRequest ..)
  refine ⟨_, hstep, fun m => ?_, fun m c hc => ?_⟩
  · by_cases hm : m = major
    · subst hm
      refine ⟨insertReq (slotKey io) req l, hchain', ?_, ?_, ?_, ?_, ?_, ?_⟩
      · exact nodup_insertReq (slotKey io) hreq hl.nodup
      · intro i
        by_cases hi : i = req
        · simp [mem_insertReq, hi]
        · simp [mem_insertReq, hi, hl.mem i]
      · change TwoRuns (slotKey io') _
        rw [hlinks.slotKey_eq]
        refine TwoRuns.after_insert ?_ fun i hi he => ?_
        · exact hl.runs.congr fun i hi => by simp [slotKey, hsame i hi]
        · have hkey := key_eq_iff.mp he
          rw [hsame i hi] at hkey
          refine hadd.2 i ((hl.mem i).mp hi) ?_
          simpa [hio, fillRequest, Io.setRequest] using hkey
      · intro i hi
        cases mem_tail_insertReq hi with
        | inl h => exact h ▸ hfresh
        | inr h => exact hlinks.fresh (hsame i (List.mem_of_mem_tail h) ▸ hl.tail i h)
      · intro i hi
        cases mem_insertReq.mp hi with
        | inl h => exact .inl (h ▸ hfresh)
        | inr h => exact hlinks.fresh_or_half (hsame i h ▸ hl.head i h)
      · intro i hi
        rw [hlinks.dev_eq]
        cases mem_insertReq.mp hi with
        | inl h => simp [h, hio, fillRequest, Io.setRequest]
        | inr h => exact hsame i h ▸ hl.taken i h
    · obtain ⟨k, hk⟩ := h m
      refine ⟨k, hk.frame (fun i hi => ?_) ?_ fun i => ?_⟩
      · have ho : s.owner i = some m := (hk.mem i).mp hi
        have hir : i ≠ req := fun e => hfree m (e ▸ ho)
        have hil : i ∉ l := fun hil => hm (Option.some.inj (ho.symm.trans ((hl.mem i).mp hil)))
        rw [hlinks.others i hil hir]
        exact fillRequest_request _ _ _ _ _ _ hir
      · change io'.currentRequest m = _
        rw [hcur, Function.update_of_ne hm]
        rfl
      · by_cases hi : i = req
        · simp [hi, Ne.symm hm, hfree m]
        · simp [hi]
  · change io'.currentRequest m = some c
    rw [hcur]
    by_cases hm : m = major
    · subst hm
      have hc' : io.currentRequest m = some c := hc
      simp [hc']
    · rw [Function.update_of_ne hm]
      exact hc

omit [DecidableEq β] in
/-- Both ways to end a request take the head off its queue and nothing else. -/
theorem queuesInv_ended {s : Queues β δ} {major : Nat} {c : Slot} {io : Io β δ} (h : QueuesInv s)
    (hc : s.io.currentRequest major = some c)
    (hreq : ∀ i, i ≠ c → io.request i = s.io.request i) (hdev : (io.request c).dev < 0)
    (hcur : io.currentRequest = Function.update s.io.currentRequest major (s.io.next c)) :
    QueuesInv (release major s io) := by
  have hrel : release major s io = ⟨io, Function.update s.owner c none⟩ := by
    simp [release, hc, hdev]
  obtain ⟨l, hl⟩ := h major
  have hhead : l.head? = some c := hc ▸ hl.chain.head?
  obtain ⟨l, rfl⟩ : ∃ m, l = c :: m := List.head?_eq_some_iff.mp hhead
  have howner : s.owner c = some major := (hl.mem c).mp List.mem_cons_self
  obtain ⟨hcl, hnd⟩ := List.nodup_cons.mp hl.nodup
  rw [hrel]
  intro m
  by_cases hm : m = major
  · subst hm
    have hne : ∀ i ∈ l, i ≠ c := fun i hi e => hcl (e ▸ hi)
    refine ⟨l, ?_, hnd, fun i => ?_, ?_, ?_, ?_, ?_⟩
    · change Chain io.next (io.currentRequest m) l
      rw [hcur, Function.update_self]
      exact hl.chain.2.congr fun i hi => by simp [Io.next, hreq i (hne i hi)]
    · by_cases hi : i = c
      · simp [hi, hcl]
      · simpa [hi] using hl.mem i
    · exact hl.runs.tail.congr fun i hi => by simp [slotKey, hreq i (hne i hi)]
    · intro i hi
      have hil : i ∈ l := List.mem_of_mem_tail hi
      exact hreq i (hne i hil) ▸ hl.tail i hil
    · intro i hi
      exact hreq i (hne i hi) ▸ hl.head i (List.mem_cons_of_mem c hi)
    · intro i hi
      exact hreq i (hne i hi) ▸ hl.taken i (List.mem_cons_of_mem c hi)
  · obtain ⟨k, hk⟩ := h m
    have hck : c ∉ k := fun hi => hm (Option.some.inj (((hk.mem c).mp hi).symm.trans howner))
    refine ⟨k, hk.frame (fun i hi => hreq i fun e => hck (e ▸ hi)) ?_ fun i => ?_⟩
    · change io.currentRequest m = _
      rw [hcur, Function.update_of_ne hm]
    · by_cases hi : i = c
      · simp [hi, howner, Ne.symm hm]
      · simp [hi]

theorem endRequest_eq {io : Io β δ} {major : Nat} {c : Slot} (uptodate : Bool)
    (hc : io.currentRequest major = some c) :
    ∃ io', endRequest major uptodate io = some io' ∧
      io'.request = Function.update io.request c { io.request c with dev := -1 } ∧
      io'.currentRequest = Function.update io.currentRequest major (io.next c) := by
  refine ⟨_, by simp [endRequest, hc]; rfl, ?_, ?_⟩
  · simp [Io.setCurrent, Io.setRequest]
  · simp [Io.setCurrent, Io.setRequest, Io.next]

theorem queuesInv_endRequest {s t : Queues β δ} {major : Nat} {uptodate : Bool} (h : QueuesInv s)
    (hst : queueStep s (.endRequest major uptodate) = some t) : QueuesInv t := by
  cases hc : s.io.currentRequest major with
  | none => simp [queueStep, endRequest, hc] at hst
  | some c =>
    obtain ⟨io, hio, hreq, hcur⟩ := endRequest_eq uptodate hc
    obtain rfl : release major s io = t := by simpa [queueStep, hio] using hst
    exact queuesInv_ended h hc (fun i hi => by simp [hreq, hi]) (by simp [hreq]) hcur

theorem readIntrAdvance_eq {io : Io β δ} {major : Nat} {c : Slot}
    (hc : io.currentRequest major = some c) :
    readIntrAdvance major io =
      if (io.request c).advance.nrSectors ≠ 0 then some (io.setRequest c (io.request c).advance)
      else endRequest major true (io.setRequest c (io.request c).advance) := by
  have hself : (io.setRequest c (io.request c).advance).request c = (io.request c).advance := by
    simp [Io.setRequest]
  simp only [readIntrAdvance, hc, Option.bind_eq_bind, Option.bind_some, hself]
  rfl

omit [DecidableEq β] in
theorem Fresh.advance {r : Request β} (h : Fresh r) :
    Half r.advance ∧ r.advance.sector = r.sector + 1 := by
  obtain ⟨heven, hlt, htwo⟩ := h
  have hmod : (r.sector + 1) % 2 ^ 32 = r.sector + 1 := Nat.mod_eq_of_lt (by omega)
  refine ⟨⟨?_, ?_, ?_⟩, hmod⟩
  · change (r.sector + 1) % 2 ^ 32 % 2 = 1
    omega
  · change (r.sector + 1) % 2 ^ 32 < 2 ^ 32
    omega
  · simp [Request.advance, htwo]

omit [DecidableEq β] in
/-- The head moves on by one sector: the requests behind it stay behind it. -/
theorem queuesInv_advance {s : Queues β δ} {major : Nat} {c : Slot} (h : QueuesInv s)
    (hc : s.io.currentRequest major = some c) (hfresh : Fresh (s.io.request c)) :
    QueuesInv (release major s (s.io.setRequest c (s.io.request c).advance)) := by
  obtain ⟨hhalf, hsector⟩ := hfresh.advance
  obtain ⟨l, hl⟩ := h major
  have hhead : l.head? = some c := hc ▸ hl.chain.head?
  obtain ⟨l, rfl⟩ : ∃ m, l = c :: m := List.head?_eq_some_iff.mp hhead
  have hcl : c ∉ l := (List.nodup_cons.mp hl.nodup).1
  have howner : s.owner c = some major := (hl.mem c).mp List.mem_cons_self
  have htaken : 0 ≤ (s.io.request c).dev := hl.taken c List.mem_cons_self
  set io := s.io.setRequest c (s.io.request c).advance with hio
  have hself : io.request c = (s.io.request c).advance := by simp [hio, Io.setRequest]
  have hother : ∀ i, i ≠ c → io.request i = s.io.request i := fun i hi => by
    simp [hio, Io.setRequest, hi]
  have hne : ∀ i ∈ l, i ≠ c := fun i hi e => hcl (e ▸ hi)
  have hpos : 0 ≤ (io.request c).dev := by simpa [hself, Request.advance] using htaken
  have hrel : release major s io = ⟨io, s.owner⟩ := by simp [release, hc, not_lt.mpr hpos]
  rw [hrel]
  intro m
  by_cases hm : m = major
  · subst hm
    refine ⟨c :: l, ?_, hl.nodup, hl.mem, ?_, ?_, ?_, ?_⟩
    · refine hl.chain.congr fun i _ => ?_
      by_cases hi : i = c
      · simp [Io.next, hi, hself, Request.advance]
      · simp [Io.next, hother i hi]
    · refine hl.runs.rekey_head (fun i hi => by simp [slotKey, hother i (hne i hi)]) ?_
      intro i hi hlt
      -- both sectors are even, so one sector further is still below
      have hi' : Fresh (s.io.request i) := hl.tail i hi
      have hlt' : inOrder (s.io.request c) (s.io.request i) := inOrder_iff_key_lt.mpr hlt
      have hadv : inOrder (s.io.request c).advance (s.io.request i) := by
        simp only [inOrder, hsector, Fresh] at hlt' hfresh hi' ⊢
        simp only [Request.advance]
        omega
      change (io.request c).key < _
      rw [hself]
      exact inOrder_iff_key_lt.mp hadv
    · intro i hi
      exact hother i (hne i hi) ▸ hl.tail i hi
    · intro i hi
      by_cases hic : i = c
      · exact .inr (hic ▸ hself ▸ hhalf)
      · exact hother i hic ▸ hl.head i hi
    · intro i hi
      by_cases hic : i = c
      · exact hic ▸ hpos
      · exact hother i hic ▸ hl.taken i hi
  · obtain ⟨k, hk⟩ := h m
    have hck : c ∉ k := fun hi => hm (Option.some.inj (((hk.mem c).mp hi).symm.trans howner))
    exact ⟨k, hk.frame (fun i hi => hother i fun e => hck (e ▸ hi)) rfl fun i => .rfl⟩

theorem queuesInv_readIntr {s t : Queues β δ} {major : Nat} (h : QueuesInv s)
    (hst : queueStep s (.readIntr major) = some t) : QueuesInv t := by
  cases hc : s.io.currentRequest major with
  | none => simp [queueStep, readIntrAdvance, hc] at hst
  | some c =>
    obtain ⟨l, hl⟩ := h major
    have hhead : l.head? = some c := hc ▸ hl.chain.head?
    simp only [queueStep, readIntrAdvance_eq hc] at hst
    cases hl.head c (List.mem_of_mem_head? hhead) with
    | inl hfresh =>
      have hleft : (s.io.request c).advance.nrSectors ≠ 0 := by simp [hfresh.advance.1.2.2]
      rw [if_pos hleft, Option.map_some] at hst
      exact Option.some.inj hst ▸ queuesInv_advance h hc hfresh
    | inr hhalf =>
      have hleft : ¬ (s.io.request c).advance.nrSectors ≠ 0 := by simp [Request.advance, hhalf.2.2]
      rw [if_neg hleft] at hst
      set io := s.io.setRequest c (s.io.request c).advance with hio
      have hc' : io.currentRequest major = some c := hc
      obtain ⟨io', hio', hreq, hcur⟩ := endRequest_eq true hc'
      rw [hio', Option.map_some] at hst
      refine Option.some.inj hst ▸ queuesInv_ended h hc (fun i hi => ?_) (by simp [hreq]) ?_
      · simp [hreq, hi, hio, Io.setRequest]
      · simp [hcur, hio, Io.setRequest, Io.next, Request.advance]

theorem queuesInv_step {s t : Queues β δ} {a : QueueAct β} (h : QueuesInv s)
    (hst : queueStep s a = some t) : QueuesInv t := by
  cases a with
  | add major req dev rw blocknr b =>
    by_cases hadd : MayAdd s major req dev rw blocknr
    · obtain ⟨u, hu, hinv, -⟩ := queuesInv_add h hadd
      exact Option.some.inj (hu.symm.trans hst) ▸ hinv
    · simp [queueStep, hadd] at hst
  | endRequest major uptodate => exact queuesInv_endRequest h hst
  | readIntr major => exact queuesInv_readIntr h hst

theorem queuesInv_init (bh : β → Hios.Fs.BufferHead β δ) (request : Slot → Request β)
    (requestFn : Nat → Bool) : QueuesInv (initQueues bh request requestFn) := fun _ =>
  ⟨[], rfl, List.nodup_nil,
    by simp [initQueues], ⟨[], [], rfl, .nil, .nil⟩, by simp, by simp, by simp⟩

/-- In every reachable state every device queue is acyclic, has each request
added and not yet ended exactly once, and at most two ascending runs; and
adding a request always succeeds and never displaces the current one. -/
theorem queue_shape_of_run {bh : β → Hios.Fs.BufferHead β δ} {request : Slot → Request β}
    {requestFn : Nat → Bool} {as : List (QueueAct β)} {s : Queues β δ}
    (h : run queueStep (initQueues bh request requestFn) as = some s) :
    (∀ major, QueueShape s major) ∧
      ∀ major req dev rw blocknr b, MayAdd s major req dev rw blocknr →
        ∃ t, queueStep s (.add major req dev rw blocknr b) = some t ∧
          ∀ m c, s.io.currentRequest m = some c → t.io.currentRequest m = some c := by
  have hinv : QueuesInv s :=
    run_inv (fun _ _ _ hs hst => queuesInv_step hs hst) (queuesInv_init bh request requestFn) h
  refine ⟨fun major => ?_, fun major req dev rw blocknr b hadd => ?_⟩
  · obtain ⟨l, hl⟩ := hinv major
    exact hl.shape
  · obtain ⟨t, ht, -, hcur⟩ := queuesInv_add hinv hadd
    exact ⟨t, ht, hcur⟩

/-- Blocks 5 and 2 of hd1 are asked for, and one sector of the first is read. -/
theorem queue_shape_of_two_reads :
    ∃ s, run queueStep
        (initQueues (δ := Unit)
          (fun _ : Unit => ⟨(), 0, 0, false, false, 0, false, none, none, none, none⟩)
          (fun _ => ⟨0, 0, 0, 0, 0, 0, none, none⟩) fun _ => true)
        [.add 3 31 0x301 READ 5 none, .add 3 30 0x301 READ 2 none, .readIntr 3] = some s ∧
      QueueShape s 3 ∧ s.io.currentRequest 3 = some 31 := by
  have hrun : (run queueStep
      (initQueues (δ := Unit)
        (fun _ : Unit => ⟨(), 0, 0, false, false, 0, false, none, none, none, none⟩)
        (fun _ => ⟨0, 0, 0, 0, 0, 0, none, none⟩) fun _ => true)
      [.add 3 31 0x301 READ 5 none, .add 3 30 0x301 READ 2 none, .readIntr 3]).any
        (fun s => s.io.currentRequest 3 = some 31) := by decide +kernel
  obtain ⟨s, hs, hcur⟩ := (Option.any_eq_true _ _).mp hrun
  exact ⟨s, hs, (queue_shape_of_run hs).1 3, of_decide_eq_true hcur⟩

end Hios.BlkDrv
