import Hios.BlkDrv.HardDisk
import Hios.BlkDrv.QueueShape
import Hios.Lib.Ownership
import Hios.Lib.Outcome

/-! Who owns what between `ll_rw_block` and the disk interrupt: a locked buffer
belongs to one process or to one request, a used slot to the queue or to the
process that fills it. -/
namespace Hios.BlkDrv
open Hios.Fs Hios.LinkedList Hios.Ownership Hios.Outcome Hios.Elevator Hios.Run
variable {β δ π : Type} {s : Blk π β δ} {l : List Slot} {p : π} {b : β} {i c : Slot}

def holder (s : Blk π β δ) (l : List Slot) : Slot ⊕ π → Option β
  | .inl i => if i ∈ l then (s.hd.io.request i).bh else none
  | .inr p => (s.pc p).buffer

def Pc.Sound (bh : β → BufferHead β δ) : Pc β → Prop
  | .outside => True
  | .locking rw _ b => (rw = READ ∨ rw = WRITE) ∧ majorOf (bh b).bDev = MAJOR_NR
  | .locked rw _ b => (rw = READ ∨ rw = WRITE) ∧ majorOf (bh b).bDev = MAJOR_NR
  | .searching rw _ b => (rw = READ ∨ rw = WRITE) ∧ majorOf (bh b).bDev = MAJOR_NR
  | .filled _ _ => True

/-- What a used slot holds: a command for the hard disk, and no `WRITE` in the last third. -/
def Good (i : Slot) (r : Request β) : Prop :=
  majorOf r.dev = MAJOR_NR ∧ (r.cmd = READ ∨ r.cmd = WRITE ∧ i.val < NR_REQUEST * 2 / 3)

structure Owned (s : Blk π β δ) (l : List Slot) : Prop where
  chain : Chain s.hd.io.next s.hd.current l
  nodup : l.Nodup
  exclusive : Exclusive (holder s l) fun b => (s.hd.io.bh b).bLock = true
  taken : ∀ i, 0 ≤ (s.hd.io.request i).dev ↔ i ∈ l ∨ ∃ p, (s.pc p).slot = some i
  apart : ∀ p i, (s.pc p).slot = some i → i ∉ l
  slots : ∀ p q i, (s.pc p).slot = some i → (s.pc q).slot = some i → p = q
  filled : ∀ p i b, s.pc p = .filled i b → (s.hd.io.request i).bh = some b
  listed : ∀ i ∈ l, ∃ b, (s.hd.io.request i).bh = some b
  good : ∀ i, 0 ≤ (s.hd.io.request i).dev → Good i (s.hd.io.request i)
  sound : ∀ p, (s.pc p).Sound s.hd.io.bh
  outstanding : s.hd.doHd = true → l ≠ []

theorem Owned.current (h : Owned s l) : s.hd.current = l.head? := h.chain.head?.symm

theorem Owned.locked_of_listed (h : Owned s l) (hi : i ∈ l) (hb : (s.hd.io.request i).bh = some b) :
    (s.hd.io.bh b).bLock = true :=
  h.exclusive.locked_of (o := .inl i) (by simp [holder, hi, hb])

structure Alike (io io' : Io β δ) : Prop where
  lock : ∀ b, (io'.bh b).bLock = (io.bh b).bLock
  major : ∀ b, majorOf (io.bh b).bDev = MAJOR_NR → majorOf (io'.bh b).bDev = MAJOR_NR
  dev : ∀ i, (io'.request i).dev = (io.request i).dev
  cmd : ∀ i, (io'.request i).cmd = (io.request i).cmd
  bh : ∀ i, (io'.request i).bh = (io.request i).bh
  next : ∀ i, (io'.request i).next = (io.request i).next
  currentRequest : io'.currentRequest = io.currentRequest

theorem Pc.Sound.congr {bh bh' : β → BufferHead β δ} {pc : Pc β} (h : pc.Sound bh)
    (hmajor : ∀ b, majorOf (bh b).bDev = MAJOR_NR → majorOf (bh' b).bDev = MAJOR_NR) :
    pc.Sound bh' := by
  cases pc with
  | outside => trivial
  | locking rw ahead b => exact ⟨h.1, hmajor b h.2⟩
  | locked rw ahead b => exact ⟨h.1, hmajor b h.2⟩
  | searching rw ahead b => exact ⟨h.1, hmajor b h.2⟩
  | filled req b => trivial

theorem Owned.alike {io : Io β δ} {doHd reset : Bool} (h : Owned s l) (ha : Alike s.hd.io io)
    (hout : doHd = true → l ≠ []) : Owned { s with hd := ⟨io, doHd, reset⟩ } l := by
  have hcur : ({ s with hd := ⟨io, doHd, reset⟩ } : Blk π β δ).hd.current = s.hd.current := by
    simp [Hd.current, ha.currentRequest]
  refine ⟨?_, h.nodup, ?_, fun i => ?_, h.apart, h.slots, fun p i b hp => ?_, fun i hi => ?_,
    fun i hi => ?_,
    fun p => (h.sound p).congr ha.major, hout⟩
  · rw [hcur]
    exact h.chain.congr fun i _ => ha.next i
  · refine h.exclusive.congr (fun o => ?_) fun b => by rw [ha.lock b]
    match o with
    | .inl i => simp [holder, ha.bh]
    | .inr p => rfl
  · rw [ha.dev]
    exact h.taken i
  · rw [ha.bh]
    exact h.filled p i b hp
  · rw [ha.bh]
    exact h.listed i hi
  · rw [ha.dev] at hi
    have hg := h.good i hi
    exact ⟨by rw [ha.dev]; exact hg.1, by rw [ha.cmd]; exact hg.2⟩

variable [DecidableEq β]

/-- `end_request` takes the first request off the queue and unlocks its buffer. -/
theorem Owned.endRequest (h : Owned s (c :: l)) (uptodate : Bool) (hidle : s.hd.doHd = false) :
    ∃ hd, hdEndRequest uptodate s.hd = .ok hd ∧ Owned { s with hd := hd } l ∧ hd.doHd = false := by
  have hc : s.hd.io.currentRequest MAJOR_NR = some c := h.current
  obtain ⟨b, hb⟩ := h.listed c List.mem_cons_self
  have hlock := h.locked_of_listed List.mem_cons_self hb
  obtain ⟨hcl, hnd⟩ := List.nodup_cons.mp h.nodup
  obtain ⟨io, hio, hreq, hcur⟩ := endRequest_eq uptodate hc
  have hbh : io.bh = Function.update s.hd.io.bh b
      { s.hd.io.bh b with bUptodate := uptodate, bLock := false } := by
    simp only [BlkDrv.endRequest, hc] at hio
    rw [← Option.some.inj hio]
    simp [hb, Io.finishBh, unlockBuffer, Io.setBh, Io.setCurrent, Io.setRequest]
  have hcurrent : s.hd.current = some c := hc
  have hself : (io.request c).dev = -1 := by simp [hreq]
  have hothers : ∀ i, i ≠ c → io.request i = s.hd.io.request i := fun i hi => by simp [hreq, hi]
  have hbhs : ∀ i, (io.request i).bh = (s.hd.io.request i).bh := fun i => by
    by_cases hi : i = c
    · simp [hreq, hi]
    · rw [hothers i hi]
  have hmajor : ∀ x, majorOf (io.bh x).bDev = majorOf (s.hd.io.bh x).bDev := fun x => by
    by_cases hx : x = b
    · simp [hbh, hx]
    · simp [hbh, hx]
  refine ⟨{ s.hd with io := io }, ?_,
    ⟨?_, hnd, ?_, fun i => ?_, fun p i hp => ?_, h.slots, fun p i b hp => ?_,
    fun i hi => ?_, fun i hi => ?_, fun p => (h.sound p).congr fun b => (hmajor b).trans,
      fun ho => ?_⟩, hidle⟩
  · simp [hdEndRequest, hcurrent, hb, hlock, hio]
  · have hnext : ({ s.hd with io := io } : Hd β δ).current = s.hd.io.next c := by
      simp [Hd.current, hcur]
    rw [hnext]
    refine h.chain.2.congr fun i hi => ?_
    have hic : i ≠ c := fun e => hcl (e ▸ hi)
    simp [Io.next, hothers i hic]
  · refine h.exclusive.release (o := .inl c) (b := b) ?_ ?_ (fun o ho => ?_) fun x => ?_
    · simp [holder, hb]
    · simp [holder, hcl]
    · obtain i | p := o
      · have hic : i ≠ c := fun e => ho (by rw [e])
        simp [holder, hbhs, hic]
      · rfl
    · by_cases hx : x = b
      · simp [hbh, hx]
      · simp [hbh, hx]
  · by_cases hi : i = c
    · have hno : ¬ ∃ p, (s.pc p).slot = some c :=
        not_exists.mpr fun p hp => h.apart p c hp List.mem_cons_self
      simp [hi, hself, hcl, hno]
    · simpa [hothers i hi, hi] using h.taken i
  · exact fun hi => h.apart p i hp (List.mem_cons_of_mem c hi)
  · rw [hbhs]
    exact h.filled p i b hp
  · rw [hbhs]
    exact h.listed i (List.mem_cons_of_mem c hi)
  · have hic : i ≠ c := fun e => by
      rw [e] at hi
      have hneg : (io.request c).dev = -1 := hself
      have hi : 0 ≤ (io.request c).dev := hi
      omega
    have hi : 0 ≤ (s.hd.io.request i).dev := hothers i hic ▸ hi
    exact (hothers i hic).symm ▸ h.good i hi
  · have ho : s.hd.doHd = true := ho
    rw [hidle] at ho
    cases ho

def Fault.Allowed (f : Fault) : Prop :=
  f = .nullRequest ∨ f = .badSector ∨ f = .notReady ∨ f = .divideError

def Keeps (s : Blk π β δ) (hd : Hd β δ) : Prop := ∃ l, Owned { s with hd := hd } l

omit [DecidableEq β] in
theorem Owned.hdOut (h : Owned s l) (hl : l ≠ []) (drive head : Nat) (ready : Bool) :
    Ends Fault.Allowed (Keeps s) (hdOut drive head ready s.hd) := by
  unfold BlkDrv.hdOut
  split
  · exact .inr (.inl rfl)
  · split
    · exact .inr (.inr (.inl rfl))
    · exact ⟨l, h.alike ⟨fun _ => rfl, fun _ => id, fun _ => rfl, fun _ => rfl, fun _ => rfl,
        fun _ => rfl, rfl⟩
        fun _ => hl⟩

/-- Requests that are out of range are ended one by one, so the loop ends with the queue. -/
theorem Owned.doHdRequest (disk : Disk) (ready : Bool) (fuel : Nat) (h : Owned s l)
    (hidle : s.hd.doHd = false) (hfuel : l.length < fuel) :
    Ends Fault.Allowed (Keeps s) (doHdRequest disk ready fuel s.hd) := by
  induction fuel generalizing s l with
  | zero => omega
  | succ fuel ih =>
    have hcur := h.current
    cases l with
    | nil =>
      have hnone : s.hd.current = none := hcur
      simp only [BlkDrv.doHdRequest, hnone]
      exact ⟨[], h⟩
    | cons c l =>
      have hsome : s.hd.current = some c := hcur
      obtain ⟨b, hb⟩ := h.listed c List.mem_cons_self
      have hlock := h.locked_of_listed List.mem_cons_self hb
      have hused : 0 ≤ (s.hd.io.request c).dev := (h.taken c).mpr (.inl List.mem_cons_self)
      obtain ⟨hmajor, hcmd⟩ := h.good c hused
      simp only [BlkDrv.doHdRequest, hsome, hmajor, hb, hlock, ne_eq, not_true_eq_false, if_false,
        Option.any_some,
        decide_false, Bool.false_eq_true]
      split
      · obtain ⟨hd, hend, howned, hidle'⟩ := h.endRequest false hidle
        simp only [List.length_cons] at hfuel
        rw [hend]
        exact ih howned hidle' (by omega)
      · split
        · exact .inr (.inr (.inr rfl))
        · split
          · exact ⟨c :: l, h⟩
          · rename_i hwrite
            rw [if_pos (hcmd.resolve_right fun e => hwrite e.1)]
            exact h.hdOut (by simp) _ _ ready

omit [DecidableEq β] in
theorem Owned.length_le (h : Owned s l) : l.length < NR_REQUEST + 1 :=
  Nat.lt_succ_of_le (length_le_of_nodup h.nodup)

omit [DecidableEq β] in
theorem alike_setRequest (io : Io β δ) (c : Slot) {r : Request β}
    (hdev : r.dev = (io.request c).dev) (hcmd : r.cmd = (io.request c).cmd)
    (hbh : r.bh = (io.request c).bh) (hnext : r.next = (io.request c).next) :
    Alike io (io.setRequest c r) := by
  refine ⟨fun _ => rfl, fun _ => id, fun i => ?_, fun i => ?_, fun i => ?_, fun i => ?_, rfl⟩
  · by_cases hi : i = c
    · simp [Io.setRequest, hi, hdev]
    · simp [Io.setRequest, hi]
  · by_cases hi : i = c
    · simp [Io.setRequest, hi, hcmd]
    · simp [Io.setRequest, hi]
  · by_cases hi : i = c
    · simp [Io.setRequest, hi, hbh]
    · simp [Io.setRequest, hi]
  · by_cases hi : i = c
    · simp [Io.setRequest, hi, hnext]
    · simp [Io.setRequest, hi]

theorem Owned.badRwInter (h : Owned s l) (hidle : s.hd.doHd = false) :
    Ends Fault.Allowed (fun hd => Keeps s hd ∧ hd.doHd = false) (badRwInter s.hd) := by
  have hcur := h.current
  cases l with
  | nil =>
    have hnone : s.hd.current = none := hcur
    simp only [BlkDrv.badRwInter, hnone]
    exact .inl rfl
  | cons c l =>
    have hsome : s.hd.current = some c := hcur
    have hcount : Owned { s with hd := { s.hd with io := (s.hd.io.setRequest c
        { s.hd.io.request c with errors := (s.hd.io.request c).errors + 1 }) } } (c :: l) :=
      h.alike (alike_setRequest s.hd.io c rfl rfl rfl rfl) h.outstanding
    have hlast : ∀ (hd : Hd β δ) (reset : Bool), Keeps s hd → hd.doHd = false →
        Keeps s { hd with reset } ∧ hd.doHd = false := by
      rintro hd reset ⟨k, hk⟩ hdone
      refine ⟨⟨k, ?_⟩, hdone⟩
      exact hk.alike ⟨fun _ => rfl, fun _ => id, fun _ => rfl, fun _ => rfl, fun _ => rfl,
        fun _ => rfl, rfl⟩
        hk.outstanding
    simp only [BlkDrv.badRwInter, hsome]
    split
    · obtain ⟨hd, hend, howned, hidle'⟩ := hcount.endRequest false hidle
      simp only at hend
      simp only [hend, bind, Except.bind]
      split
      · exact .inl rfl
      · exact hlast hd _ ⟨l, howned⟩ hidle'
    · simp only [bind, Except.bind]
      split
      · exact .inl rfl
      · exact hlast _ _ ⟨c :: l, hcount⟩ hidle

theorem Owned.readIntr (disk : Disk) (bad ready : Bool) (h : Owned s l)
    (hidle : s.hd.doHd = false) :
    Ends Fault.Allowed (Keeps s) (readIntr disk bad ready s.hd) := by
  unfold BlkDrv.readIntr
  split
  · refine (h.badRwInter hidle).bind fun hd ⟨⟨k, hk⟩, hdone⟩ => ?_
    exact hk.doHdRequest disk ready (NR_REQUEST + 1) hdone hk.length_le
  · have hcur := h.current
    cases l with
    | nil =>
      have hnone : s.hd.current = none := hcur
      simp only [hnone]
      exact .inl rfl
    | cons c l =>
      have hsome : s.hd.current = some c := hcur
      have hread : Owned { s with
        hd := { s.hd with io := s.hd.io.setRequest c (s.hd.io.request c).advance } }
          (c :: l) := h.alike (alike_setRequest s.hd.io c rfl rfl rfl rfl) h.outstanding
      simp only [hsome]
      generalize (s.hd.io.request c).advance = r at hread ⊢
      split
      · exact ⟨c :: l, hread.alike ⟨fun _ => rfl, fun _ => id, fun _ => rfl, fun _ => rfl,
          fun _ => rfl,
          fun _ => rfl, rfl⟩ (by simp)⟩
      · obtain ⟨hd, hend, howned, hidle'⟩ := hread.endRequest true hidle
        simp only at hend
        rw [hend]
        exact howned.doHdRequest disk ready (NR_REQUEST + 1) hidle' howned.length_le

section Processes
variable [DecidableEq π]

omit [DecidableEq β] in
theorem setPc_pc (s : Blk π β δ) (p q : π) (pc : Pc β) :
    (s.setPc p pc).pc q = if q = p then pc else s.pc q := by
  by_cases hq : q = p
  · simp [Blk.setPc, hq]
  · simp [Blk.setPc, hq]

omit [DecidableEq β] in
theorem Owned.move {f : β → BufferHead β δ} {pc : Pc β} (h : Owned s l) (hslot : pc.slot = none)
    (hslot' : (s.pc p).slot = none) (hsound : pc.Sound f)
    (hmajor : ∀ b, majorOf (f b).bDev = majorOf (s.hd.io.bh b).bDev)
    (hexcl : Exclusive (holder ((s.setIo { s.hd.io with bh := f }).setPc p pc) l) fun b =>
      (f b).bLock = true) :
    Owned ((s.setIo { s.hd.io with bh := f }).setPc p pc) l := by
  have hslots : ∀ q, (((s.setIo { s.hd.io with bh := f }).setPc p pc).pc q).slot =
      (s.pc q).slot := by
    intro q
    rw [setPc_pc]
    split
    · rename_i hq
      rw [hslot, hq, hslot']
    · rfl
  refine ⟨h.chain, h.nodup, hexcl, fun i => ?_, fun q i hq => ?_, fun q r i hq hr => ?_,
    fun q i b hq => ?_,
    h.listed, h.good, fun q => ?_, h.outstanding⟩
  · simp only [hslots]
    exact h.taken i
  · exact h.apart q i (hslots q ▸ hq)
  · exact h.slots q r i (hslots q ▸ hq) (hslots r ▸ hr)
  · rw [setPc_pc] at hq
    split at hq
    · rw [hq] at hslot
      cases hslot
    · exact h.filled q i b hq
  · rw [setPc_pc]
    split
    · exact hsound
    · exact (h.sound q).congr fun b => (hmajor b).trans

omit [DecidableEq β] in
theorem Owned.setPc {pc : Pc β} (h : Owned s l) (hbuf : pc.buffer = (s.pc p).buffer)
    (hslot : pc.slot = none) (hslot' : (s.pc p).slot = none) (hsound : pc.Sound s.hd.io.bh) :
    Owned (s.setPc p pc) l := by
  refine h.move (f := s.hd.io.bh) hslot hslot' hsound (fun _ => rfl) ?_
  refine h.exclusive.congr (fun o => ?_) fun _ => .rfl
  match o with
  | .inl i => rfl
  | .inr q =>
    simp only [holder, setPc_pc]
    split
    · rename_i hq
      rw [hbuf, hq]
    · rfl

omit [DecidableEq β] in
theorem holder_setPc (s : Blk π β δ) (l : List Slot) (p q : π) (pc : Pc β) :
    holder (s.setPc p pc) l (.inr q) = if q = p then pc.buffer else (s.pc q).buffer := by
  simp only [holder, setPc_pc]
  split
  · rfl
  · rfl

theorem Owned.lock {rw : Nat} {ahead : Bool} (h : Owned s l) (hpc : s.pc p = .locking rw ahead b) :
    Owned (lockBuffer p rw ahead b s) l := by
  have hsound := h.sound p
  rw [hpc] at hsound
  unfold lockBuffer
  split
  · exact h
  · rename_i hfree
    have hmajor : ∀ x, majorOf
      (Function.update s.hd.io.bh b { s.hd.io.bh b with bLock := true } x).bDev =
        majorOf (s.hd.io.bh x).bDev := by
      intro x
      by_cases hx : x = b
      · simp [hx]
      · simp [hx]
    refine h.move rfl (by rw [hpc]; rfl) (hsound.congr fun x => (hmajor x).trans) hmajor ?_
    refine h.exclusive.acquire (o := .inr p) (b := b) hfree ?_ ?_ (fun o ho => ?_) fun x => ?_
    · simp [holder, hpc, Pc.buffer]
    · rw [holder_setPc, if_pos rfl]
      rfl
    · match o with
      | .inl i => rfl
      | .inr q => rw [holder_setPc, if_neg fun e => ho (by rw [e])]; rfl
    · by_cases hx : x = b
      · simp [hx]
      · simp [hx]

theorem Owned.leave (h : Owned s l) (hbuf : (s.pc p).buffer = some b)
    (hslot : (s.pc p).slot = none) :
    Ends Fault.Allowed (fun io => Owned ((s.setIo io).setPc p .outside) l)
      (unlockChecked b s.hd.io) := by
  have hheld : holder s l (.inr p) = some b := hbuf
  rw [unlockChecked, if_pos (h.exclusive.locked_of hheld)]
  have hmajor : ∀ x, majorOf
    (Function.update s.hd.io.bh b { s.hd.io.bh b with bLock := false } x).bDev =
      majorOf (s.hd.io.bh x).bDev := by
    intro x
    by_cases hx : x = b
    · simp [hx]
    · simp [hx]
  refine h.move rfl hslot trivial hmajor ?_
  refine h.exclusive.release (o := .inr p) (b := b) hheld ?_ (fun o ho => ?_) fun x => ?_
  · rw [holder_setPc, if_pos rfl]
    rfl
  · match o with
    | .inl i => rfl
    | .inr q => rw [holder_setPc, if_neg fun e => ho (by rw [e])]; rfl
  · by_cases hx : x = b
    · simp [hx]
    · simp [hx]

section Fill
variable {req : Slot} {io : Io β δ}

omit [DecidableEq β] [DecidableEq π] in
theorem Owned.unused (h : Owned s l) (hfree : (s.hd.io.request req).dev < 0) :
    req ∉ l ∧ ∀ p, (s.pc p).slot ≠ some req := by
  have hno := mt (h.taken req).mpr (not_le_of_gt hfree)
  exact ⟨fun hl => hno (.inl hl), fun p hp => hno (.inr ⟨p, hp⟩)⟩

omit [DecidableEq β] in
theorem slot_setPc_filled {q : π} (hq : ((s.setPc p (.filled req b)).pc q).slot = some i) :
    q = p ∧ i = req ∨ q ≠ p ∧ (s.pc q).slot = some i := by
  rw [setPc_pc] at hq
  by_cases hqp : q = p
  · rw [if_pos hqp] at hq
    exact .inl ⟨hqp, (Option.some.inj hq).symm⟩
  · rw [if_neg hqp] at hq
    exact .inr ⟨hqp, hq⟩

omit [DecidableEq β] in
theorem Owned.fill_taken (h : Owned s l) (hpc : (s.pc p).slot = none)
    (hself : 0 ≤ (io.request req).dev) (hothers : ∀ i, i ≠ req → io.request i = s.hd.io.request i)
    (i : Slot) :
    0 ≤ (io.request i).dev ↔ i ∈ l ∨ ∃ q, ((s.setPc p (.filled req b)).pc q).slot = some i := by
  by_cases hi : i = req
  · have hmine : ∃ q, ((s.setPc p (.filled req b)).pc q).slot = some i :=
      ⟨p, by rw [setPc_pc, if_pos rfl, hi]; rfl⟩
    exact iff_of_true (hi ▸ hself) (.inr hmine)
  · rw [hothers i hi, h.taken i]
    refine or_congr .rfl (exists_congr fun q => ⟨fun hq => ?_, fun hq => ?_⟩)
    · have hqp : q ≠ p := fun e => by
        rw [e, hpc] at hq
        cases hq
      rw [setPc_pc, if_neg hqp]
      exact hq
    · exact ((slot_setPc_filled hq).resolve_left fun e => hi e.2).2

omit [DecidableEq β] in
/-- The lock of the buffer stays with the process. -/
theorem Owned.fill_exclusive (h : Owned s l) (hpc : (s.pc p).buffer = some b) (hnl : req ∉ l)
    (hbh : io.bh = s.hd.io.bh) (hothers : ∀ i, i ≠ req → io.request i = s.hd.io.request i) :
    Exclusive (holder ((s.setIo io).setPc p (.filled req b)) l) fun x =>
      (io.bh x).bLock = true := by
  refine h.exclusive.congr (fun o => ?_) fun x => by rw [hbh]
  obtain i | q := o
  · by_cases hi : i ∈ l
    · have hreq : ((s.setIo io).setPc p (.filled req b)).hd.io.request i = s.hd.io.request i :=
        hothers i fun e => hnl (e ▸ hi)
      simp only [holder, if_pos hi, hreq]
    · simp only [holder, if_neg hi]
  · rw [holder_setPc]
    by_cases hq : q = p
    · rw [if_pos hq, hq, holder, hpc]
      rfl
    · rw [if_neg hq]
      rfl

omit [DecidableEq β] in
/-- A process that comes to a free slot and fills it. -/
theorem Owned.fillWith (h : Owned s l) (hbuf : (s.pc p).buffer = some b)
    (hslot : (s.pc p).slot = none) (hfree : (s.hd.io.request req).dev < 0)
    (hbh : io.bh = s.hd.io.bh) (hcurrent : io.currentRequest = s.hd.io.currentRequest)
    (hothers : ∀ i, i ≠ req → io.request i = s.hd.io.request i) (hdev : 0 ≤ (io.request req).dev)
    (hreq : (io.request req).bh = some b) (hgood : Good req (io.request req)) :
    Owned ((s.setIo io).setPc p (.filled req b)) l := by
  obtain ⟨hnl, hnp⟩ := h.unused hfree
  have hlisted : ∀ i ∈ l, io.request i = s.hd.io.request i :=
    fun i hi => hothers i fun e => hnl (e ▸ hi)
  have hcur : ((s.setIo io).setPc p (.filled req b)).hd.current = s.hd.current := by
    simp [Hd.current, Blk.setIo, Blk.setPc, hcurrent]
  refine ⟨?_, h.nodup, h.fill_exclusive hbuf hnl hbh hothers, h.fill_taken hslot hdev hothers,
    fun q i hq => ?_,
    fun q r i hq hr => ?_, fun q i x hq => ?_, fun i hi => ?_, fun i hi => ?_, fun q => ?_,
      h.outstanding⟩
  · rw [hcur]
    refine h.chain.congr fun i hi => ?_
    have hnext : io.next i = s.hd.io.next i := by rw [Io.next, hlisted i hi, Io.next]
    exact hnext
  · cases slot_setPc_filled hq with
    | inl e => exact e.2 ▸ hnl
    | inr e => exact h.apart q i e.2
  · cases slot_setPc_filled hq with
    | inl e =>
      cases slot_setPc_filled hr with
      | inl e' => exact e.1.trans e'.1.symm
      | inr e' => exact absurd (e.2 ▸ e'.2) (hnp r)
    | inr e =>
      cases slot_setPc_filled hr with
      | inl e' => exact absurd (e'.2 ▸ e.2) (hnp q)
      | inr e' => exact h.slots q r i e.2 e'.2
  · change (io.request i).bh = some x
    rw [setPc_pc] at hq
    by_cases hqp : q = p
    · rw [if_pos hqp] at hq
      obtain ⟨rfl, rfl⟩ := Pc.filled.inj hq
      exact hreq
    · rw [if_neg hqp] at hq
      have hq : s.pc q = .filled i x := hq
      have hi : i ≠ req := fun e => hnp q (by rw [hq, Pc.slot, e])
      rw [hothers i hi]
      exact h.filled q i x hq
  · change ∃ x, (io.request i).bh = some x
    rw [hlisted i hi]
    exact h.listed i hi
  · change Good i (io.request i)
    have hi : 0 ≤ (io.request i).dev := hi
    by_cases hir : i = req
    · exact hir ▸ hgood
    · rw [hothers i hir] at hi ⊢
      exact h.good i hi
  · rw [setPc_pc]
    split
    · trivial
    · refine (h.sound q).congr fun x => ?_
      change majorOf (s.hd.io.bh x).bDev = MAJOR_NR → majorOf (io.bh x).bDev = MAJOR_NR
      rw [hbh]
      exact id

omit [DecidableEq β] in
theorem Owned.fill {cmd : Nat} {ahead : Bool} (h : Owned s l)
    (hpc : s.pc p = .searching cmd ahead b) (hfind : findRequest s.hd.io.request cmd = some req) :
    Owned ((s.setIo (fillRequest req (s.hd.io.bh b).bDev cmd (s.hd.io.bh b).bBlocknr
      (some b) s.hd.io)).setPc p
      (.filled req b)) l := by
  have hfound := List.find?_some hfind
  simp only [decide_eq_true_eq] at hfound
  obtain ⟨hend, hfree⟩ := hfound
  have hsound := h.sound p
  rw [hpc] at hsound
  have hself : (fillRequest req (s.hd.io.bh b).bDev cmd (s.hd.io.bh b).bBlocknr
    (some b) s.hd.io).request req =
      ⟨(s.hd.io.bh b).bDev, cmd, 0, (s.hd.io.bh b).bBlocknr * 2 % 2 ^ 32, 2, 0, some b, none⟩ := by
    simp [fillRequest, Io.setRequest]
  refine h.fillWith (by rw [hpc]; rfl) (by rw [hpc]; rfl) hfree rfl rfl
    (fun i hi => fillRequest_request _ _ _ _ _ _ hi) ?_ ?_ ?_
  · rw [hself]
    exact Int.natCast_nonneg _
  · rw [hself]
  · rw [hself]
    refine ⟨hsound.2, hsound.1.imp_right fun (hw : cmd = WRITE) => ⟨hw, ?_⟩⟩
    rw [hw] at hend
    simpa [searchEnd, WRITE, READ] using hend

end Fill

omit [DecidableEq π] in
theorem addRequest_bh {io io' : Io β δ} {major : Nat} {req : Slot}
    (h : addRequest major req io = some io') (x : β) :
    (io'.bh x).bLock = (io.bh x).bLock ∧ (io'.bh x).bDev = (io.bh x).bDev := by
  have hclean : ∀ (k : Io β δ) (c : Option β),
      ((k.cleanBh c).bh x).bLock = (k.bh x).bLock ∧ ((k.cleanBh c).bh x).bDev = (k.bh x).bDev := by
    intro k c
    cases c with
    | none => exact ⟨rfl, rfl⟩
    | some c =>
      by_cases hx : x = c
      · simp [Io.cleanBh, Io.setBh, hx]
      · simp [Io.cleanBh, Io.setBh, hx]
  simp only [addRequest] at h
  split at h
  · rw [← Option.some.inj h]
    exact hclean _ _
  · obtain ⟨tmp, -, rfl⟩ := Option.map_eq_some_iff.mp h
    exact hclean _ _

section Add
variable {req : Slot} {io : Io β δ} {k : List Slot}

omit [DecidableEq β] in
theorem slot_setPc_outside {q : π} (hq : ((s.setPc p .outside).pc q).slot = some i) :
    q ≠ p ∧ (s.pc q).slot = some i := by
  rw [setPc_pc] at hq
  by_cases hqp : q = p
  · rw [if_pos hqp] at hq
    cases hq
  · rw [if_neg hqp] at hq
    exact ⟨hqp, hq⟩

omit [DecidableEq β] in
/-- The lock of the buffer goes from the process to the queue. -/
theorem Owned.add_exclusive (h : Owned s l) (hpc : s.pc p = .filled req b)
    (hk : ∀ i, i ∈ k ↔ i = req ∨ i ∈ l) (hlock : ∀ x, (io.bh x).bLock = (s.hd.io.bh x).bLock)
    (hbh : ∀ i, (io.request i).bh = (s.hd.io.request i).bh) :
    Exclusive (holder ((s.setIo io).setPc p .outside) k) fun x => (io.bh x).bLock = true := by
  have hnl := h.apart p req (by rw [hpc]; rfl)
  have hheld : holder s l (.inr p) = some b := by rw [holder, hpc]; rfl
  have hfree : holder s l (.inl req) = none := by rw [holder, if_neg hnl]
  refine h.exclusive.transfer hheld hfree ?_ ?_ (fun o ho ho' => ?_) fun x => by rw [hlock]
  · rw [holder_setPc, if_pos rfl]
    rfl
  · have hb : (io.request req).bh = some b := (hbh req).trans (h.filled p req b hpc)
    rw [holder, if_pos ((hk req).mpr (.inl rfl))]
    exact hb
  · match o with
    | .inl i =>
      have hi : i ≠ req := fun e => ho' (by rw [e])
      have hiff : i ∈ k ↔ i ∈ l := by simp [hk, hi]
      have hb : ((s.setIo io).setPc p .outside).hd.io.request i = io.request i := rfl
      simp only [holder, hiff, hb, hbh]
    | .inr q =>
      rw [holder_setPc, if_neg fun e => ho (by rw [e])]
      rfl

omit [DecidableEq β] in
theorem Owned.add_taken (h : Owned s l) (hslot : (s.pc p).slot = some req)
    (hk : ∀ i, i ∈ k ↔ i = req ∨ i ∈ l) (hdev : ∀ i, (io.request i).dev = (s.hd.io.request i).dev)
    (i : Slot) :
    0 ≤ (io.request i).dev ↔ i ∈ k ∨ ∃ q, ((s.setPc p .outside).pc q).slot = some i := by
  rw [hdev, h.taken i, hk]
  refine ⟨fun e => ?_, fun e => ?_⟩
  · cases e with
    | inl e => exact .inl (.inr e)
    | inr e =>
      obtain ⟨q, hq⟩ := e
      by_cases hqp : q = p
      · rw [hqp, hslot] at hq
        exact .inl (.inl (Option.some.inj hq).symm)
      · refine .inr ⟨q, ?_⟩
        rw [setPc_pc, if_neg hqp]
        exact hq
  · cases e with
    | inl e =>
      cases e with
      | inl e => exact .inr ⟨p, e ▸ hslot⟩
      | inr e => exact .inl e
    | inr e =>
      obtain ⟨q, hq⟩ := e
      exact .inr ⟨q, (slot_setPc_outside hq).2⟩

/-- A filled slot joins the queue, and the buffer's lock goes from the process to it. -/
theorem Owned.add (h : Owned s l) (hpc : s.pc p = .filled req b) :
    ∃ io, addRequest MAJOR_NR req s.hd.io = some io ∧
      Owned ((s.setIo io).setPc p .outside) (insertReq (slotKey s.hd.io) req l) := by
  have hslot : (s.pc p).slot = some req := by rw [hpc]; rfl
  have hnl := h.apart p req hslot
  obtain ⟨io, hio, hlinks, hchain, -⟩ := addRequest_eq_insert h.chain h.nodup hnl
  have hdev : ∀ i, (io.request i).dev = (s.hd.io.request i).dev := fun i => by
    obtain ⟨n, hn⟩ := hlinks.fields i
    rw [hn]
  have hcmd : ∀ i, (io.request i).cmd = (s.hd.io.request i).cmd := fun i => by
    obtain ⟨n, hn⟩ := hlinks.fields i
    rw [hn]
  have hbh : ∀ i, (io.request i).bh = (s.hd.io.request i).bh := fun i => by
    obtain ⟨n, hn⟩ := hlinks.fields i
    rw [hn]
  have hk : ∀ i, i ∈ insertReq (slotKey s.hd.io) req l ↔ i = req ∨ i ∈ l := fun i => mem_insertReq
  refine ⟨io, hio, hchain, nodup_insertReq (slotKey s.hd.io) hnl h.nodup,
    h.add_exclusive hpc hk (fun x => (addRequest_bh hio x).1) hbh, h.add_taken hslot hk hdev,
      fun q i hq => ?_,
    fun q r i hq hr => ?_, fun q i x hq => ?_, fun i hi => ?_, fun i hi => ?_, fun q => ?_,
      fun ho hnil => ?_⟩
  · obtain ⟨hqp, hq⟩ := slot_setPc_outside hq
    rw [hk]
    exact not_or.mpr ⟨fun e => hqp (h.slots q p i hq (e ▸ hslot)), h.apart q i hq⟩
  · exact h.slots q r i (slot_setPc_outside hq).2 (slot_setPc_outside hr).2
  · change (io.request i).bh = some x
    rw [hbh]
    rw [setPc_pc] at hq
    by_cases hqp : q = p
    · rw [if_pos hqp] at hq
      cases hq
    · rw [if_neg hqp] at hq
      exact h.filled q i x hq
  · change ∃ x, (io.request i).bh = some x
    rw [hbh]
    cases (hk i).mp hi with
    | inl e => exact ⟨b, e ▸ h.filled p req b hpc⟩
    | inr e => exact h.listed i e
  · change Good i (io.request i)
    have hi : 0 ≤ (io.request i).dev := hi
    have hg := h.good i (hdev i ▸ hi)
    exact ⟨by rw [hdev]; exact hg.1, by rw [hcmd]; exact hg.2⟩
  · rw [setPc_pc]
    split
    · trivial
    · refine (h.sound q).congr fun x => ?_
      change majorOf (s.hd.io.bh x).bDev = MAJOR_NR → majorOf (io.bh x).bDev = MAJOR_NR
      rw [(addRequest_bh hio x).2]
      exact id
  · have hreq := (hk req).mpr (.inl rfl)
    rw [hnil] at hreq
    cases hreq

end Add

theorem Owned.addAndStart {req : Slot} (disk : Disk) (ready : Bool) (h : Owned s l)
    (hpc : s.pc p = .filled req b) :
    Ends Fault.Allowed (Keeps (s.setPc p .outside)) (addAndStart disk ready req s.hd) := by
  obtain ⟨io, hio, howned⟩ := h.add hpc
  simp only [BlkDrv.addAndStart, hio]
  split
  · rename_i hempty
    have hnil : l = [] := List.head?_eq_none_iff.mp (h.current.symm.trans hempty)
    have hidle : s.hd.doHd = false := Bool.eq_false_iff.mpr fun e => h.outstanding e hnil
    exact howned.doHdRequest disk ready (NR_REQUEST + 1) hidle howned.length_le
  · exact ⟨_, howned⟩

theorem Owned.goOn (disk : Disk) (p : π) (ready : Bool) (h : Owned s l) :
    Ends Fault.Allowed (fun t => ∃ k, Owned t k) (goOn disk p ready s) := by
  cases hpc : s.pc p with
  | outside =>
    simp only [BlkDrv.goOn, hpc]
    exact ⟨l, h⟩
  | locking rw ahead b =>
    simp only [BlkDrv.goOn, hpc]
    exact ⟨l, h.lock hpc⟩
  | locked rw ahead b =>
    have hsound := h.sound p
    rw [hpc] at hsound
    simp only [BlkDrv.goOn, hpc, checkBuffer]
    split
    · exact (h.leave (by rw [hpc]; rfl) (by rw [hpc]; rfl)).bind fun io hio => ⟨l, hio⟩
    · exact ⟨l, h.setPc (by rw [hpc]; rfl) rfl (by rw [hpc]; rfl) hsound⟩
  | searching rw ahead b =>
    simp only [BlkDrv.goOn, hpc, searchRequest]
    split
    · rename_i req hfind
      exact ⟨l, h.fill hpc hfind⟩
    · split
      · exact (h.leave (by rw [hpc]; rfl) (by rw [hpc]; rfl)).bind fun io hio => ⟨l, hio⟩
      · exact ⟨l, h⟩
  | filled req b =>
    simp only [BlkDrv.goOn, hpc]
    exact (h.addAndStart disk ready hpc).bind fun hd hkeep => hkeep

omit [DecidableEq β] in
/-- A call that finds nothing to do returns; another one waits for the lock. -/
theorem Owned.llRwBlock {rw : Nat} (h : Owned s l) (hpc : s.pc p = .outside) (hrw : rw ≤ WRITEA)
    (hmajor : majorOf (s.hd.io.bh b).bDev = MAJOR_NR) :
    Ends Fault.Allowed (fun t => ∃ k, Owned t k) (llRwBlock p rw b s) := by
  have hcmd : ∀ ahead : Bool, decide (rw = READA ∨ rw = WRITEA) = ahead →
      (if ahead = true then (if rw = READA then READ else WRITE) else rw) = READ ∨
      (if ahead = true then (if rw = READA then READ else WRITE) else rw) = WRITE := by
    intro ahead hahead
    by_cases hr : rw = READA ∨ rw = WRITEA
    · rw [← hahead, if_pos (decide_eq_true hr)]
      split
      · exact .inl rfl
      · exact .inr rfl
    · rw [← hahead, if_neg (by simpa using hr)]
      simp only [READ, WRITE, READA, WRITEA] at hrw hr ⊢
      omega
  simp only [BlkDrv.llRwBlock]
  generalize hahead : decide (rw = READA ∨ rw = WRITEA) = ahead
  have hcmd := hcmd ahead hahead
  generalize (if ahead = true then (if rw = READA then READ else WRITE) else rw) = cmd at hcmd ⊢
  split
  · exact ⟨l, h⟩
  · split
    · exact ⟨l, h⟩
    · split
      · rename_i hbad
        exact absurd hcmd (not_or.mpr hbad)
      · exact ⟨l, h.setPc (by rw [hpc]; rfl) rfl (by rw [hpc]; rfl) ⟨hcmd, hmajor⟩⟩

theorem Owned.perform (disk : Disk) {a : BlkAct π β δ} (h : Owned s l) (ha : blkEnabled s a) :
    Ends Fault.Allowed (fun t => ∃ k, Owned t k) (blkPerform disk s a) := by
  cases a with
  | call p rw b =>
    obtain ⟨hout, hrw, hmajor⟩ := ha
    cases hpc : s.pc p with
    | outside => exact h.llRwBlock hpc hrw hmajor
    | locking rw ahead b => simp [hpc, Pc.isOutside] at hout
    | locked rw ahead b => simp [hpc, Pc.isOutside] at hout
    | searching rw ahead b => simp [hpc, Pc.isOutside] at hout
    | filled req b => simp [hpc, Pc.isOutside] at hout
  | go p ready => exact h.goOn disk p ready
  | interrupt bad ready =>
    have hcleared : Owned { s with hd := { s.hd with doHd := false } } l :=
      h.alike ⟨fun _ => rfl, fun _ => id, fun _ => rfl, fun _ => rfl, fun _ => rfl, fun _ => rfl,
        rfl⟩ (by simp)
    exact Ends.map (R := fun t => ∃ k, Owned t k) (hcleared.readIntr disk bad ready rfl)
  | touch b g =>
    obtain ⟨hlock, hmajor⟩ := ha
    refine ⟨l, h.alike ⟨fun x => ?_, fun x hx => ?_, fun _ => rfl, fun _ => rfl, fun _ => rfl,
      fun _ => rfl, rfl⟩
      h.outstanding⟩
    · by_cases hxb : x = b
      · simp [Io.setBh, hxb, hlock]
      · simp [Io.setBh, hxb]
    · by_cases hxb : x = b
      · simp [Io.setBh, hxb, hmajor]
      · simpa [Io.setBh, hxb] using hx

omit [DecidableEq β] [DecidableEq π] in
theorem owned_init (bh : β → BufferHead β δ) (request : Slot → Request β) :
    Owned (initBlk (π := π) bh request) [] := by
  refine ⟨rfl, List.nodup_nil, .empty (fun o => ?_) (fun b => ?_), fun i => ?_, fun p i hp => ?_,
    fun p q i hp => ?_,
    fun p i b hp => ?_, fun i hi => ?_, fun i hi => ?_, fun p => trivial, fun ho => ?_⟩
  · match o with
    | .inl i => rfl
    | .inr p => rfl
  · simp [initBlk, blkDevInit]
  · simp [initBlk, blkDevInit, Pc.slot]
  · cases hp
  · cases hp
  · cases hp
  · cases hi
  · simp [initBlk, blkDevInit] at hi
  · cases ho

/-- In every reachable state a slot is used exactly when it is queued or being
filled, the queued buffers are locked and distinct, a locked buffer is queued or
held by a process in `make_request`, the last third of the table holds no
`WRITE`, and no step reaches one of the panics and warnings on the queue. -/
theorem requests_owned {disk : Disk} {bh : β → BufferHead β δ} {request : Slot → Request β}
    {as : List (BlkAct π β δ)} (h : run (blkStep disk) (initBlk bh request) as = some s) :
    ∃ l, Chain s.hd.io.next s.hd.current l ∧ l.Nodup ∧
      (∀ i, 0 ≤ (s.hd.io.request i).dev ↔ i ∈ l ∨ ∃ p, (s.pc p).slot = some i) ∧
      (∀ i ∈ l, ∃ b, (s.hd.io.request i).bh = some b ∧ (s.hd.io.bh b).bLock = true) ∧
      (∀ i ∈ l, ∀ j ∈ l, (s.hd.io.request i).bh = (s.hd.io.request j).bh → i = j) ∧
      (∀ b, (s.hd.io.bh b).bLock = true →
        (∃ i ∈ l, (s.hd.io.request i).bh = some b) ∨ ∃ p, (s.pc p).buffer = some b) ∧
      (∀ i : Slot, NR_REQUEST * 2 / 3 ≤ i.val → 0 ≤ (s.hd.io.request i).dev →
        (s.hd.io.request i).cmd ≠ WRITE) ∧
      ∀ a f, blkEnabled s a → blkPerform disk s a = .error f → f.Allowed := by
  have hstep : ∀ (s : Blk π β δ) a t, (∃ l, Owned s l) → blkStep disk s a = some t →
      ∃ l, Owned t l := by
    rintro s a t ⟨l, hl⟩ hst
    unfold blkStep at hst
    split at hst
    · rename_i ha
      have hkept := hl.perform disk ha
      cases hperf : blkPerform disk s a with
      | error f =>
        rw [hperf] at hst
        cases hst
      | ok u =>
        rw [hperf] at hst hkept
        exact Option.some.inj hst ▸ hkept
    · cases hst
  obtain ⟨l, hl⟩ := run_inv hstep ⟨[], owned_init bh request⟩ h
  refine ⟨l, hl.chain, hl.nodup, hl.taken, fun i hi => ?_, fun i hi j hj heq => ?_, fun b hb => ?_,
    fun i hi hused hwrite => ?_, fun a f ha herr => ?_⟩
  · obtain ⟨b, hb⟩ := hl.listed i hi
    exact ⟨b, hb, hl.locked_of_listed hi hb⟩
  · obtain ⟨b, hb⟩ := hl.listed i hi
    refine Sum.inl_injective (β := π) (hl.exclusive.unique (.inl i) (.inl j) b ?_ ?_)
    · rw [holder, if_pos hi, hb]
    · rw [holder, if_pos hj, ← heq, hb]
  · obtain ⟨o, ho⟩ := (hl.exclusive.held b).mp hb
    match o with
    | .inl i =>
      by_cases hi : i ∈ l
      · rw [holder, if_pos hi] at ho
        exact .inl ⟨i, hi, ho⟩
      · rw [holder, if_neg hi] at ho
        cases ho
    | .inr p => exact .inr ⟨p, ho⟩
  · have hcmd := (hl.good i hused).2
    rw [hwrite] at hcmd
    simp [READ, WRITE] at hcmd
    omega
  · have hends := hl.perform disk ha
    rw [herr] at hends
    exact hends

theorem requests_owned_of_two_readers :
    ∃ s, run (blkStep ⟨1, fun _ => 16, fun _ => 17, fun _ => 0, fun _ => 1000⟩)
        (initBlk (π := Bool) (δ := Unit)
          (fun _ : Unit => ⟨(), 7, 0x301, false, false, 1, false, none, none, none, none⟩)
          fun _ => ⟨0, 0, 0, 0, 0, 0, none, none⟩)
        [.call false READ (), .call true READ (), .go false true, .go true true, .go false true,
          .go false true,
          .go false true, .interrupt false true] = some s ∧
      s.hd.current = some 31 ∧ ∃ l, Chain s.hd.io.next s.hd.current l ∧
        ∀ i ∈ l, ∃ b, (s.hd.io.request i).bh = some b ∧ (s.hd.io.bh b).bLock = true := by
  have hrun : (run (blkStep ⟨1, fun _ => 16, fun _ => 17, fun _ => 0, fun _ => 1000⟩)
      (initBlk (π := Bool) (δ := Unit)
        (fun _ : Unit => ⟨(), 7, 0x301, false, false, 1, false, none, none, none, none⟩)
        fun _ => ⟨0, 0, 0, 0, 0, 0, none, none⟩)
      [.call false READ (), .call true READ (), .go false true, .go true true, .go false true,
        .go false true,
        .go false true, .interrupt false true]).any (fun s => s.hd.current = some 31) := by
    decide +kernel
  obtain ⟨s, hs, hcur⟩ := (Option.any_eq_true _ _).mp hrun
  obtain ⟨l, hl, -, -, hlocked, -⟩ := requests_owned hs
  exact ⟨s, hs, of_decide_eq_true hcur, l, hl, hlocked⟩

end Processes

end Hios.BlkDrv
