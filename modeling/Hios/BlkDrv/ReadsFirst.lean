import Hios.BlkDrv.QueueShape

/-! Where `add_request` puts a new `READ`: ahead of the queued `WRITE`s, except
that a request below the head of the queue first passes the head's whole run. -/
namespace Hios.BlkDrv
open Hios.LinkedList Hios.Elevator Hios.Run
variable {β δ : Type}

def Queues.queue (s : Queues β δ) (major : Nat) : List Slot :=
  walk s.io.next NR_REQUEST (s.io.currentRequest major)

/-- In the queue of `t` the request `req` stands before every `WRITE` that
waited behind the head in `s`. -/
def ReadAhead (s t : Queues β δ) (major : Nat) (req : Slot) : Prop :=
  ∀ w ∈ (s.queue major).tail, (s.io.request w).cmd = WRITE →
    (t.queue major).idxOf req < (t.queue major).idxOf w

instance (s t : Queues β δ) (major : Nat) (req : Slot) : Decidable (ReadAhead s t major req) :=
  inferInstanceAs (Decidable (∀ w ∈ _, _))

/-- The current request is `IN_ORDER` before the new one, or no `WRITE` stands
between it and the first descent of the queue. -/
def WayClear (s : Queues β δ) (major : Nat) (new : Request β) : Prop :=
  (∀ c ∈ s.io.currentRequest major, inOrder (s.io.request c) new) ∨
    ∀ w ∈ (firstRun (slotKey s.io) (s.queue major)).tail, (s.io.request w).cmd ≠ WRITE

instance (s : Queues β δ) (major : Nat) (new : Request β) : Decidable (WayClear s major new) :=
  inferInstanceAs (Decidable (_ ∨ _))

theorem QueueInv.queue_eq {s : Queues β δ} {major : Nat} {l : List Slot} (h : QueueInv s major l) :
    s.queue major = l := h.chain.walk_eq NR_REQUEST (length_le_of_nodup h.nodup)

theorem not_write_of_key_lt {r₁ r₂ : Request β} (hr : r₂.cmd = READ) (h : r₁.key < r₂.key) :
    r₁.cmd ≠ WRITE := by
  have hlt : inOrder r₁ r₂ := inOrder_iff_key_lt.mpr h
  simp only [inOrder, READ, WRITE] at hlt hr ⊢
  omega

theorem idxOf_lt_iff {r w : Slot} {p q : List Slot} (hr : r ∉ p) (hw : w ≠ r) :
    (p ++ r :: q).idxOf r < (p ++ r :: q).idxOf w ↔ w ∉ p := by
  rw [List.idxOf_append_of_notMem hr, List.idxOf_cons_self]
  by_cases hp : w ∈ p
  · have hlt : p.idxOf w < p.length := List.idxOf_lt_length_iff.mpr hp
    rw [List.idxOf_append_of_mem hp]
    simp only [hp, not_true, iff_false]
    omega
  · rw [List.idxOf_append_of_notMem hp, List.idxOf_cons_ne _ (Ne.symm hw)]
    simp only [hp, not_false_eq_true, iff_true]
    omega

variable [DecidableEq β]

theorem QueueInv.queue_add {s t : Queues β δ} {major : Nat} {req : Slot} {dev rw blocknr : Nat}
    {b : Option β} {l : List Slot} (h : QueueInv s major l) (hreq : req ∉ l)
    (hst : queueStep s (.add major req dev rw blocknr b) = some t) :
    t.queue major = insertReq (slotKey (fillRequest req dev rw blocknr b s.io)) req l := by
  set io := fillRequest req dev rw blocknr b s.io with hio
  have hchain : Chain io.next (io.currentRequest major) l := h.fill_chain hreq
  obtain ⟨io', hio', -, hchain', -⟩ := addRequest_eq_insert hchain h.nodup hreq
  have hadd := mayAdd_of_step hst
  obtain rfl : (⟨io', Function.update s.owner req (some major)⟩ : Queues β δ) = t := by
    simpa [queueStep, hadd, ← hio, hio'] using hst
  exact hchain'.walk_eq NR_REQUEST (length_le_of_nodup (nodup_insertReq (slotKey io) hreq h.nodup))

omit [DecidableEq β] in
theorem firstRun_congr {io io' : Io β δ} {l : List Slot}
    (h : ∀ i ∈ l, io'.request i = io.request i) :
    firstRun (slotKey io') l = firstRun (slotKey io) l := by
  induction l using firstRun.induct (slotKey io) with
  | case1 => rfl
  | case2 x => rfl
  | case3 x y l hxy ih =>
    have hkey : slotKey io' x < slotKey io' y := by simpa [slotKey, h] using hxy
    rw [firstRun, if_pos hkey, firstRun, if_pos hxy, ih fun i hi => h i (List.mem_cons_of_mem x hi)]
  | case4 x y l hxy =>
    have hkey : ¬ slotKey io' x < slotKey io' y := by simpa [slotKey, h] using hxy
    rw [firstRun, if_neg hkey, firstRun, if_neg hxy]

/-- A new `READ` is served before every `WRITE` behind the head exactly when
its way past the head's run is clear. -/
theorem read_ahead_iff {bh : β → Hios.Fs.BufferHead β δ} {request : Slot → Request β}
    {requestFn : Nat → Bool} {as : List (QueueAct β)} {s t : Queues β δ} {major : Nat} {req : Slot}
    {dev blocknr : Nat} {b : Option β}
    (h : run queueStep (initQueues bh request requestFn) as = some s)
    (hst : queueStep s (.add major req dev READ blocknr b) = some t) :
    ReadAhead s t major req ↔
      WayClear s major ((fillRequest req dev READ blocknr b s.io).request req) := by
  have hinv : QueuesInv s :=
    run_inv (fun _ _ _ hs hst => queuesInv_step hs hst) (queuesInv_init bh request requestFn) h
  have hadd := mayAdd_of_step hst
  obtain ⟨l, hl⟩ := hinv major
  have hreq : req ∉ l := fun hm => hinv.not_owned hadd.1 major ((hl.mem req).mp hm)
  set io := fillRequest req dev READ blocknr b s.io with hio
  have hsame : ∀ i ∈ l, io.request i = s.io.request i := fillRequest_same hreq
  have hread : (io.request req).cmd = READ := by simp [hio, fillRequest, Io.setRequest]
  have hne : ∀ i ∈ l, slotKey io i ≠ slotKey io req := by
    intro i hi he
    have hkey := key_eq_iff.mp he
    rw [hsame i hi] at hkey
    refine hadd.2 i ((hl.mem i).mp hi) ?_
    simpa [hio, fillRequest, Io.setRequest] using hkey
  have hsmall : ∀ i ∈ l, slotKey io i < slotKey io req → (s.io.request i).cmd ≠ WRITE :=
    fun i hi hlt => hsame i hi ▸ not_write_of_key_lt hread hlt
  have hcur : s.io.currentRequest major = l.head? := hl.chain.head?.symm
  rw [ReadAhead, WayClear, hl.queue_add hreq hst, hl.queue_eq, hcur, ← firstRun_congr hsame]
  cases l with
  | nil => simp
  | cons x l =>
    obtain ⟨hxl, hnd⟩ := List.nodup_cons.mp hl.nodup
    have hx : x ∈ x :: l := List.mem_cons_self
    have hxr : req ≠ x := fun e => hreq (e ▸ hx)
    have htail : ∀ y ∈ l, y ∈ x :: l := fun y hy => List.mem_cons_of_mem x hy
    have hclear : (∀ c ∈ (x :: l).head?, inOrder (s.io.request c) (io.request req)) ↔
        slotKey io x < slotKey io req := by
      simp [← hsame x hx, inOrder_iff_key_lt, slotKey]
    rw [hclear, List.tail_cons]
    cases lt_or_gt_of_ne (hne x hx) with
    | inl hlt =>
      obtain ⟨p, q, rfl, hins, hp⟩ := insert_above hlt fun y hy => hne y (htail y hy)
      refine iff_of_true (fun w hw hwrite => ?_) (.inl hlt)
      have hreqp : req ∉ x :: p := by simp_all
      have hwr : w ≠ req := fun e => hreq (e ▸ htail w hw)
      rw [hins, idxOf_lt_iff hreqp hwr]
      intro hwp
      cases List.mem_cons.mp hwp with
      | inl e => exact hxl (e ▸ hw)
      | inr hwp => exact hsmall w (htail w hw) (hp w hwp) hwrite
    | inr hgt =>
      obtain ⟨p, q, hsplit, hins, hp⟩ := insert_below hgt fun y hy => hne y (htail y hy)
      obtain ⟨m, hm⟩ := firstRun_head (slotKey io) x l
      rw [hm] at hsplit hins ⊢
      obtain rfl : l = m ++ (p ++ q) := by simpa using hsplit
      have hreqp : req ∉ x :: m ++ p := fun hp => hreq (by
        rw [← List.append_assoc, ← List.cons_append]
        exact List.mem_append_left q hp)
      have hsorted : ∀ w ∈ m ++ (p ++ q), (s.io.request w).cmd = WRITE →
          ((insertReq (slotKey io) req (x :: (m ++ (p ++ q)))).idxOf req <
            (insertReq (slotKey io) req (x :: (m ++ (p ++ q)))).idxOf w ↔ w ∉ m) := by
        intro w hw hwrite
        have hwr : w ≠ req := fun e => hreq (e ▸ htail w hw)
        have hwx : w ≠ x := fun e => hxl (e ▸ hw)
        have hwp : w ∉ p := fun hwp => hsmall w (htail w hw) (hp w hwp) hwrite
        rw [hins, ← List.append_assoc, idxOf_lt_iff hreqp hwr]
        simp [hwx, hwp]
      rw [List.tail_cons]
      constructor
      · intro hahead
        refine .inr fun w hw hwrite => ?_
        have hwl : w ∈ m ++ (p ++ q) := List.mem_append_left _ hw
        exact (hsorted w hwl hwrite).mp (hahead w hwl hwrite) hw
      · intro hway w hw hwrite
        have hclear := hway.resolve_left hgt.asymm
        exact (hsorted w hw hwrite).mpr fun hwm => hclear w hwm hwrite

theorem read_ahead_of_write :
    ∃ s t, run queueStep
        (initQueues (δ := Unit)
          (fun _ : Unit => ⟨(), 0, 0, false, false, 0, false, none, none, none, none⟩)
          (fun _ => ⟨0, 0, 0, 0, 0, 0, none, none⟩) fun _ => true)
        [.add 3 31 0x301 READ 5 none, .add 3 30 0x301 WRITE 2 none] = some s ∧
      queueStep s (.add 3 29 0x301 READ 7 none) = some t ∧ ReadAhead s t 3 29 := by
  have hrun : (run queueStep
      (initQueues (δ := Unit)
        (fun _ : Unit => ⟨(), 0, 0, false, false, 0, false, none, none, none, none⟩)
        (fun _ => ⟨0, 0, 0, 0, 0, 0, none, none⟩) fun _ => true)
      [.add 3 31 0x301 READ 5 none, .add 3 30 0x301 WRITE 2 none]).any
        (fun s => (queueStep s (.add 3 29 0x301 READ 7 none)).isSome ∧
          WayClear s 3 ((fillRequest 29 0x301 READ 7 none s.io).request 29)) := by decide +kernel
  obtain ⟨s, hs, hstep⟩ := (Option.any_eq_true _ _).mp hrun
  obtain ⟨hsome, hclear⟩ := of_decide_eq_true hstep
  obtain ⟨t, ht⟩ := Option.isSome_iff_exists.mp hsome
  exact ⟨s, t, hs, ht, (read_ahead_iff hs ht).mpr hclear⟩

/-- Blocks 5 and 7 are to be written; the `READ` of block 3 goes behind both. -/
theorem read_behind_writes :
    ∃ s t, run queueStep
        (initQueues (δ := Unit)
          (fun _ : Unit => ⟨(), 0, 0, false, false, 0, false, none, none, none, none⟩)
          (fun _ => ⟨0, 0, 0, 0, 0, 0, none, none⟩) fun _ => true)
        [.add 3 31 0x301 WRITE 5 none, .add 3 30 0x301 WRITE 7 none] = some s ∧
      queueStep s (.add 3 29 0x301 READ 3 none) = some t ∧
      t.queue 3 = [31, 30, 29] ∧ ¬ ReadAhead s t 3 29 := by
  have hrun : (run queueStep
      (initQueues (δ := Unit)
        (fun _ : Unit => ⟨(), 0, 0, false, false, 0, false, none, none, none, none⟩)
        (fun _ => ⟨0, 0, 0, 0, 0, 0, none, none⟩) fun _ => true)
      [.add 3 31 0x301 WRITE 5 none, .add 3 30 0x301 WRITE 7 none]).any
        (fun s => (queueStep s (.add 3 29 0x301 READ 3 none)).any
          fun t => t.queue 3 = [31, 30, 29] ∧ ¬ ReadAhead s t 3 29) := by decide +kernel
  obtain ⟨s, hs, hstep⟩ := (Option.any_eq_true _ _).mp hrun
  obtain ⟨t, ht, hqueue⟩ := (Option.any_eq_true _ _).mp hstep
  exact ⟨s, t, hs, ht, of_decide_eq_true hqueue⟩

end Hios.BlkDrv
