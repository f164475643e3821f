import Hios.BlkDrv.Ownership

/-! Whose errors the disk interrupt counts, and when its error path loses the request
that it works for. -/
namespace Hios.BlkDrv
open Hios.Fs Hios.LinkedList Hios.Outcome Hios.Run
variable {β δ π : Type} {s : Blk π β δ} {hd : Hd β δ} {l : List Slot} {c : Slot} {p : π} {b : β}

def Waiting (s : Hd β δ) : Prop :=
  ∀ i, 0 ≤ (s.io.request i).dev → s.current ≠ some i → (s.io.request i).errors = 0

structure Tally (s : Hd β δ) : Prop where
  waiting : Waiting s
  marked : ∀ c, s.current = some c → MAX_ERRORS / 2 < (s.io.request c).errors → s.reset = true

structure SameCount (s t : Hd β δ) : Prop where
  errors : ∀ i, (t.io.request i).errors = (s.io.request i).errors
  reset : t.reset = s.reset

/-- What an interrupt counts: `c` has one error more, or none, and `reset` is its due. -/
structure Counted (bad : Bool) (s t : Hd β δ) (c : Slot) : Prop where
  own : (t.io.request c).errors = if bad then (s.io.request c).errors + 1 else 0
  others : ∀ i, i ≠ c → (t.io.request i).errors = (s.io.request i).errors
  reset : t.reset = (s.reset || bad && decide (MAX_ERRORS / 2 < (s.io.request c).errors + 1))

theorem SameCount.trans {s t u : Hd β δ} (h : SameCount s t) (h' : SameCount t u) : SameCount s u :=
  ⟨fun i => (h'.errors i).trans (h.errors i), h'.reset.trans h.reset⟩

theorem Counted.then {bad : Bool} {s t u : Hd β δ} (h : Counted bad s t c) (h' : SameCount t u) :
    Counted bad s u c :=
  ⟨(h'.errors c).trans h.own, fun i hi => (h'.errors i).trans (h.others i hi),
    h'.reset.trans h.reset⟩

theorem Owned.next_errors (h : Owned s (c :: l)) (hw : Waiting s.hd) {n : Slot}
    (hn : l.head? = some n) :
    (s.hd.io.request n).errors = 0 := by
  have hnl : n ∈ l := List.mem_of_mem_head? hn
  have hcn : c ≠ n := fun e => (List.nodup_cons.mp h.nodup).1 (e ▸ hnl)
  refine hw n ((h.taken n).mpr (.inl (List.mem_cons_of_mem c hnl))) ?_
  rw [h.current]
  exact fun e => hcn (Option.some.inj e)

variable [DecidableEq β]

theorem hdEndRequest_eq {uptodate : Bool} {s hd : Hd β δ} (h : hdEndRequest uptodate s = .ok hd) :
    hd.reset = s.reset ∧ ∃ c, s.current = some c ∧
      hd.io.request = Function.update s.io.request c { s.io.request c with dev := -1 } := by
  cases hc : s.current with
  | none => simp [hdEndRequest, hc] at h
  | some c =>
    obtain ⟨io, hio, hreq, -⟩ := endRequest_eq uptodate hc
    simp only [hdEndRequest, hc, hio] at h
    split at h
    · cases h
    · obtain rfl := Except.ok.inj h
      exact ⟨rfl, c, rfl, hreq⟩

theorem Waiting.endRequest (uptodate : Bool) (h : Owned s (c :: l)) (hw : Waiting s.hd)
    (hidle : s.hd.doHd = false) :
    ∃ hd, hdEndRequest uptodate s.hd = .ok hd ∧ Owned { s with hd := hd } l ∧
    hd.doHd = false ∧ Tally hd ∧
      SameCount s.hd hd := by
  obtain ⟨hd, hend, howned, hdone⟩ := h.endRequest uptodate hidle
  obtain ⟨hreset, d, hd', hreq⟩ := hdEndRequest_eq hend
  obtain rfl : c = d := Option.some.inj (h.current.symm.trans hd')
  have herrors : ∀ i, (hd.io.request i).errors = (s.hd.io.request i).errors := fun i => by
    by_cases hi : i = c
    · simp [hreq, hi]
    · simp [hreq, hi]
  have hother : ∀ i, i ≠ c → hd.io.request i = s.hd.io.request i := fun i hi => by simp [hreq, hi]
  have hself : (hd.io.request c).dev = -1 := by simp [hreq]
  refine ⟨hd, hend, howned, hdone, ⟨fun i hi hne => ?_, fun n hn hmany => ?_⟩, herrors, hreset⟩
  · have hic : i ≠ c := fun e => by
      rw [e, hself] at hi
      omega
    rw [herrors]
    rw [hother i hic] at hi
    refine hw i hi ?_
    rw [hd']
    exact fun e => hic (Option.some.inj e).symm
  · have hhead : l.head? = some n := howned.current.symm.trans hn
    rw [herrors, h.next_errors hw hhead] at hmany
    simp [MAX_ERRORS] at hmany

theorem Tally.doHdRequest (disk : Disk) (ready : Bool) (fuel : Nat) (h : Owned s l)
    (ht : Tally s.hd) (hidle : s.hd.doHd = false) :
    Ends (· ≠ Fault.nullRequest) (fun t => Tally t ∧ SameCount s.hd t)
      (doHdRequest disk ready fuel s.hd) := by
  induction fuel generalizing s l with
  | zero => simp [BlkDrv.doHdRequest, Ends]
  | succ fuel ih =>
    have hcur := h.current
    have hsame : SameCount s.hd s.hd := ⟨fun _ => rfl, rfl⟩
    cases l with
    | nil =>
      have hnone : s.hd.current = none := hcur
      simp only [BlkDrv.doHdRequest, hnone]
      exact ⟨ht, hsame⟩
    | cons c l =>
      have hsome : s.hd.current = some c := hcur
      simp only [BlkDrv.doHdRequest, hsome]
      split
      · simp [Ends]
      split
      · simp [Ends]
      split
      · obtain ⟨hd, hend, howned, hdone, ht', hsame'⟩ := ht.waiting.endRequest false h hidle
        rw [hend]
        exact (ih howned ht' hdone).mono fun t h => ⟨h.1, hsame'.trans h.2⟩
      split
      · simp [Ends]
      split
      · exact ⟨ht, hsame⟩
      split
      · unfold BlkDrv.hdOut
        split
        · simp [Ends]
        split
        · simp [Ends]
        · exact ⟨⟨ht.waiting, ht.marked⟩, ⟨fun _ => rfl, rfl⟩⟩
      · simp [Ends]

def Hd.countError (s : Hd β δ) (c : Slot) : Hd β δ :=
  { s with io := s.io.setRequest c { s.io.request c with errors := (s.io.request c).errors + 1 } }

omit [DecidableEq β] in
theorem countError_request (s : Hd β δ) (c i : Slot) :
    (s.countError c).io.request i =
      if i = c then { s.io.request c with errors := (s.io.request c).errors + 1 }
        else s.io.request i := by
  by_cases hi : i = c
  · simp [Hd.countError, Io.setRequest, hi]
  · simp [Hd.countError, Io.setRequest, hi]

theorem badRwInter_eq (s : Hd β δ) (hc : s.current = some c) :
    badRwInter s = (if MAX_ERRORS ≤ (s.io.request c).errors + 1 then hdEndRequest false
      (s.countError c)
      else .ok (s.countError c)) >>= fun t => match t.current with
        | none => .error .nullRequest
        | some n =>
          .ok { t with reset := t.reset || decide (MAX_ERRORS / 2 < (t.io.request n).errors) } := by
  simp only [BlkDrv.badRwInter, hc]
  by_cases hmax : MAX_ERRORS ≤ (s.io.request c).errors + 1
  · simp only [if_pos hmax]
    rfl
  · simp only [if_neg hmax]
    rfl

/-- `bad_rw_inter`, which loses its request with the last error of the only one queued. -/
theorem Tally.badRwInter (h : Owned s (c :: l)) (ht : Tally s.hd) (hidle : s.hd.doHd = false) :
    if MAX_ERRORS ≤ (s.hd.io.request c).errors + 1 ∧
    l = [] then badRwInter s.hd = .error .nullRequest
    else ∃ hd k, badRwInter s.hd = .ok hd ∧ Owned { s with hd := hd } k ∧
    hd.doHd = false ∧ Tally hd ∧
      Counted true s.hd hd c := by
  have hcur : s.hd.current = some c := h.current
  have hcount : Owned { s with hd := s.hd.countError c } (c :: l) :=
    h.alike (alike_setRequest s.hd.io c rfl rfl rfl rfl) h.outstanding
  have hwait : Waiting (s.hd.countError c) := fun i hi hne => by
    have hic : i ≠ c := fun e => hne (e ▸ hcur)
    rw [countError_request, if_neg hic] at hi ⊢
    exact ht.waiting i hi (fun e => hne e)
  have hcounted : ∀ i, ((s.hd.countError c).io.request i).errors =
      if i = c then (s.hd.io.request c).errors + 1 else (s.hd.io.request i).errors := fun i => by
    rw [countError_request]
    split <;> rfl
  rw [badRwInter_eq s.hd hcur]
  by_cases hmax : MAX_ERRORS ≤ (s.hd.io.request c).errors + 1
  · obtain ⟨hd, hend, howned, hdone, ht', hsame⟩ := hwait.endRequest false hcount hidle
    have hnext : hd.current = l.head? := howned.current
    simp only [if_pos hmax, hend, bind, Except.bind]
    cases l with
    | nil => simp [hnext, hmax]
    | cons n l =>
      have hnext' : hd.current = some n := hnext
      have hn : (hd.io.request n).errors = 0 := by
        rw [hsame.errors]
        exact hcount.next_errors hwait rfl
      -- The first error beyond half of them has set `reset` long ago.
      have hreset : s.hd.reset = true :=
        ht.marked c hcur (by simp only [MAX_ERRORS] at hmax ⊢; omega)
      have hkeep : hd.reset = true := hsame.reset.trans hreset
      rw [if_neg (by simp)]
      simp only [hnext', hn, hkeep, Bool.true_or]
      refine ⟨_, n :: l, rfl, ?_, hdone, ⟨ht'.waiting, fun _ _ _ => rfl⟩, ?_, fun i hi => ?_, ?_⟩
      · exact howned.alike ⟨fun _ => rfl, fun _ => id, fun _ => rfl, fun _ => rfl, fun _ => rfl,
          fun _ => rfl, rfl⟩
          howned.outstanding
      · simp [hsame.errors, hcounted]
      · simp [hsame.errors, hcounted, hi]
      · simp [hreset]
  · have hcur' : (s.hd.countError c).current = some c := hcur
    rw [if_neg (fun e => hmax e.1)]
    simp only [if_neg hmax, bind, Except.bind, hcur']
    refine ⟨_, c :: l, rfl, ?_, hidle, ⟨hwait, fun d hd hmany => ?_⟩, ?_, fun i hi => ?_, ?_⟩
    · exact hcount.alike ⟨fun _ => rfl, fun _ => id, fun _ => rfl, fun _ => rfl, fun _ => rfl,
        fun _ => rfl, rfl⟩
        hcount.outstanding
    · obtain rfl : c = d := Option.some.inj (hcur'.symm.trans hd)
      simp [hmany]
    · simp [hcounted]
    · simp [hcounted, hi]
    · simp only [hcounted, if_true, Bool.true_and]
      rfl

theorem Tally.readIntr (disk : Disk) (bad ready : Bool) (h : Owned s (c :: l)) (ht : Tally s.hd)
    (hidle : s.hd.doHd = false) :
    if bad = true ∧ MAX_ERRORS ≤ (s.hd.io.request c).errors + 1 ∧ l = [] then
      readIntr disk bad ready s.hd = .error .nullRequest
    else Ends (· ≠ Fault.nullRequest) (fun t => Tally t ∧ Counted bad s.hd t c)
      (readIntr disk bad ready s.hd) := by
  have hcur : s.hd.current = some c := h.current
  cases bad with
  | true =>
    have hbad := ht.badRwInter h hidle
    simp only [BlkDrv.readIntr, true_and, if_true]
    split
    · rename_i hlast
      rw [if_pos hlast] at hbad
      rw [hbad]
      rfl
    · rename_i hlast
      rw [if_neg hlast] at hbad
      obtain ⟨hd, k, hok, howned, hdone, ht', hcounted⟩ := hbad
      rw [hok]
      exact (ht'.doHdRequest disk ready (NR_REQUEST + 1) howned hdone).mono fun t h =>
        ⟨h.1, hcounted.then h.2⟩
  | false =>
    have hread : Owned { s with
      hd := { s.hd with io := s.hd.io.setRequest c (s.hd.io.request c).advance } } (c :: l) :=
      h.alike (alike_setRequest s.hd.io c rfl rfl rfl rfl) h.outstanding
    have hzero : (s.hd.io.request c).advance.errors = 0 := rfl
    simp only [BlkDrv.readIntr, hcur, Bool.false_eq_true, false_and, if_false]
    generalize (s.hd.io.request c).advance = r at hread hzero ⊢
    have hself : (s.hd.io.setRequest c r).request c = r := by simp [Io.setRequest]
    have hother : ∀ i, i ≠ c → (s.hd.io.setRequest c r).request i = s.hd.io.request i := fun i hi =>
        by
      simp [Io.setRequest, hi]
    have hwait : Waiting { s.hd with io := s.hd.io.setRequest c r } := fun i hi hne => by
      have hic : i ≠ c := fun e => hne (e ▸ hcur)
      simp only [hother i hic] at hi ⊢
      exact ht.waiting i hi fun e => hne e
    have hcounted : Counted false s.hd { s.hd with io := s.hd.io.setRequest c r } c :=
      ⟨by simp [hself, hzero], fun i hi => by simp [hother i hi], by simp⟩
    split
    · refine ⟨⟨hwait, fun d hd hmany => ?_⟩, hcounted.own, hcounted.others, hcounted.reset⟩
      obtain rfl : c = d := Option.some.inj (hcur.symm.trans hd)
      simp [hself, hzero, MAX_ERRORS] at hmany
    · obtain ⟨hd, hend, howned, hdone, ht', hsame⟩ := hwait.endRequest true hread hidle
      simp only at hend
      rw [hend]
      exact (ht'.doHdRequest disk ready (NR_REQUEST + 1) howned hdone).mono fun t h =>
        ⟨h.1, hcounted.then (hsame.trans h.2)⟩

section Processes
variable [DecidableEq π]

omit [DecidableEq β] in
theorem Tally.congr {s t : Hd β δ} (h : Tally s) (hreq : t.io.request = s.io.request)
    (hcur : t.current = s.current) (hreset : t.reset = s.reset) : Tally t := by
  refine ⟨fun i hi hne => ?_, fun c hc hmany => ?_⟩
  · rw [hreq] at hi ⊢
    exact h.waiting i hi (hcur ▸ hne)
  · rw [hreq] at hmany
    rw [hreset]
    exact h.marked c (hcur ▸ hc) hmany

omit [DecidableEq β] in
theorem Tally.fill {s : Hd β δ} (h : Tally s) (req : Slot) (dev rw blocknr : Nat) (b : Option β) :
    Tally { s with io := fillRequest req dev rw blocknr b s.io } := by
  have hself : ((fillRequest req dev rw blocknr b s.io).request req).errors = 0 := by
    simp [fillRequest, Io.setRequest]
  have hother : ∀ i, i ≠ req → (fillRequest req dev rw blocknr b s.io).request i =
      s.io.request i := fun i hi => by
    simp [fillRequest, Io.setRequest, hi]
  refine ⟨fun i hi hne => ?_, fun c hc hmany => ?_⟩
  · by_cases hir : i = req
    · rw [hir]
      exact hself
    · simp only [hother i hir] at hi ⊢
      exact h.waiting i hi hne
  · by_cases hcr : c = req
    · simp only [hcr, hself] at hmany
      simp [MAX_ERRORS] at hmany
    · simp only [hother c hcr] at hmany
      exact h.marked c hc hmany

omit [DecidableEq π] in
theorem Tally.add {req : Slot} {io : Io β δ} (h : Owned s l) (ht : Tally s.hd)
    (hpc : s.pc p = .filled req b) (hadd : addRequest MAJOR_NR req s.hd.io = some io) :
    Tally { s.hd with io := io } := by
  have hslot : (s.pc p).slot = some req := by rw [hpc]; rfl
  have hused := (h.taken req).mpr (.inr ⟨p, hslot⟩)
  obtain ⟨io', hio, hlinks, -, hcur⟩ := addRequest_eq_insert h.chain h.nodup (h.apart p req hslot)
  obtain rfl : io' = io := Option.some.inj (hio.symm.trans hadd)
  have hcurrent : ({ s.hd with io := io' } : Hd β δ).current = some (s.hd.current.getD req) := by
    simp [Hd.current, hcur]
  have hdev : ∀ i, (io'.request i).dev = (s.hd.io.request i).dev ∧
    (io'.request i).errors = (s.hd.io.request i).errors :=
    fun i => by
      obtain ⟨n, hn⟩ := hlinks.fields i
      simp [hn]
  refine ⟨fun i hi hne => ?_, fun c hc hmany => ?_⟩
  · simp only [hdev] at hi ⊢
    refine ht.waiting i hi fun e => hne ?_
    rw [hcurrent, e]
    rfl
  · simp only [hdev] at hmany
    rw [hcurrent] at hc
    cases hold : s.hd.current with
    | none =>
      obtain rfl : req = c := by simpa [hold] using hc
      rw [ht.waiting req hused (by simp [hold])] at hmany
      simp [MAX_ERRORS] at hmany
    | some d =>
      obtain rfl : d = c := by simpa [hold] using hc
      exact ht.marked d hold hmany

theorem Tally.goOn (disk : Disk) (p : π) (ready : Bool) (h : Owned s l) (ht : Tally s.hd) :
    IfReturns (fun t => Tally t.hd) (goOn disk p ready s) := by
  cases hpc : s.pc p with
  | outside =>
    simp only [BlkDrv.goOn, hpc]
    exact ht
  | locking rw ahead b =>
    simp only [BlkDrv.goOn, hpc, lockBuffer]
    split
    · exact ht
    · exact ht.congr rfl rfl rfl
  | locked rw ahead b =>
    simp only [BlkDrv.goOn, hpc, checkBuffer, unlockChecked]
    split
    · split
      · exact ht.congr rfl rfl rfl
      · trivial
    · exact ht
  | searching rw ahead b =>
    simp only [BlkDrv.goOn, hpc, searchRequest, unlockChecked]
    split
    · exact ht.fill ..
    · split
      · split
        · exact ht.congr rfl rfl rfl
        · trivial
      · exact ht
  | filled req b =>
    simp only [BlkDrv.goOn, hpc, BlkDrv.addAndStart]
    obtain ⟨io, hio, howned⟩ := h.add hpc
    have ht' := ht.add h hpc hio
    simp only [hio]
    split
    · rename_i hempty
      have hnil : l = [] := List.head?_eq_none_iff.mp (h.current.symm.trans hempty)
      have hidle : s.hd.doHd = false := Bool.eq_false_iff.mpr fun e => h.outstanding e hnil
      refine Ends.bind (Q := Tally) ?_ fun hd hd' => hd'
      exact ((ht'.doHdRequest disk ready (NR_REQUEST + 1) howned hidle).mono fun t h =>
        h.1).weaken fun _ _ => trivial
    · exact ht'

omit [DecidableEq β] [DecidableEq π] in
/-- The state in which an interrupt finds the driver: a request is under way. -/
theorem Owned.interrupted (h : Owned s l) (hout : s.hd.doHd = true) :
    ∃ c k, l = c :: k ∧ s.hd.current = some c ∧
    Owned { s with hd := { s.hd with doHd := false } } (c :: k) := by
  cases l with
  | nil => exact absurd rfl (h.outstanding hout)
  | cons c k =>
    refine ⟨c, k, rfl, h.current, ?_⟩
    exact h.alike ⟨fun _ => rfl, fun _ => id, fun _ => rfl, fun _ => rfl, fun _ => rfl,
      fun _ => rfl, rfl⟩ (by simp)

theorem Tally.perform (disk : Disk) {a : BlkAct π β δ} (h : Owned s l) (ht : Tally s.hd)
    (ha : blkEnabled s a) :
    IfReturns (fun t => Tally t.hd) (blkPerform disk s a) := by
  cases a with
  | call p rw b =>
    simp only [blkPerform, llRwBlock]
    generalize (if decide (rw = READA ∨ rw = WRITEA) = true then
      (if rw = READA then READ else WRITE) else rw) = cmd
    split
    · exact ht
    split
    · exact ht
    split
    · trivial
    · exact ht
  | go p ready => exact ht.goOn disk p ready h
  | interrupt bad ready =>
    obtain ⟨c, k, -, -, howned⟩ := h.interrupted ha
    have hread := (ht.congr rfl rfl rfl : Tally { s.hd with doHd := false }).readIntr disk bad
      ready howned rfl
    simp only [blkPerform]
    refine Ends.map (R := fun t : Blk π β δ => Tally t.hd) ?_
    split at hread
    · rw [hread]
      trivial
    · exact (hread.mono fun t h => h.1).weaken fun _ _ => trivial
  | touch b g => exact ht.congr rfl rfl rfl

omit [DecidableEq β] [DecidableEq π] in
theorem tally_init (bh : β → BufferHead β δ) (request : Slot → Request β) :
    Tally (initBlk (π := π) bh request).hd := by
  refine ⟨fun i hi _ => ?_, fun c hc _ => ?_⟩
  · simp [initBlk, blkDevInit] at hi
  · cases hc

theorem owned_tally {disk : Disk} {bh : β → BufferHead β δ} {request : Slot → Request β}
    {as : List (BlkAct π β δ)} (h : run (blkStep disk) (initBlk bh request) as = some s) :
    ∃ l, Owned s l ∧ Tally s.hd := by
  refine run_inv (P := fun s : Blk π β δ => ∃ l, Owned s l ∧ Tally s.hd)
    (fun s a t ⟨l, hl, ht⟩ hst => ?_)
    ⟨[], owned_init bh request, tally_init bh request⟩ h
  unfold blkStep at hst
  split at hst
  · rename_i ha
    have howned := hl.perform disk ha
    have htally := ht.perform disk hl ha
    cases hperf : blkPerform disk s a with
    | error f =>
      rw [hperf] at hst
      cases hst
    | ok u =>
      rw [hperf] at hst howned htally
      obtain rfl : u = t := Option.some.inj hst
      obtain ⟨k, hk⟩ := howned
      exact ⟨k, hk, htally⟩
  · cases hst

/-- The handler works for a request: it never follows a null one, and what it counts is
counted against the request that suffered it. -/
def ErrorPathSafe (disk : Disk) (bad ready : Bool) (s : Hd β δ) : Prop :=
  ∃ c, s.current = some c ∧
    Ends (· ≠ Fault.nullRequest) (fun t => Counted bad s t c)
      (readIntr disk bad ready { s with doHd := false })

def LastOfQueue (s : Hd β δ) : Prop :=
  ∃ c, s.current = some c ∧ MAX_ERRORS ≤ (s.io.request c).errors + 1 ∧ (s.io.request c).next = none

/-- In every reachable state the interrupt is safe but for the last error of the only
request. -/
theorem error_path_safe_iff {disk : Disk} {bh : β → BufferHead β δ} {request : Slot → Request β}
    {as : List (BlkAct π β δ)} (h : run (blkStep disk) (initBlk bh request) as = some s)
    (hout : s.hd.doHd = true) (bad ready : Bool) :
    ErrorPathSafe disk bad ready s.hd ↔ ¬ (bad = true ∧ LastOfQueue s.hd) := by
  obtain ⟨l, hl, ht⟩ := owned_tally h
  obtain ⟨c, k, rfl, hc, howned⟩ := hl.interrupted hout
  have hread := (ht.congr rfl rfl rfl : Tally { s.hd with doHd := false }).readIntr disk bad
    ready howned rfl
  have hnext : (s.hd.io.request c).next = none ↔ k = [] := by
    have hhead : k.head? = s.hd.io.next c := hl.chain.2.head?
    rw [← Io.next, ← hhead, List.head?_eq_none_iff]
  have hlast : (bad = true ∧ LastOfQueue s.hd) ↔
      bad = true ∧ MAX_ERRORS ≤ (s.hd.io.request c).errors + 1 ∧ k = [] := by
    refine and_congr_right fun _ => ⟨fun h => ?_, fun h => ⟨c, hc, h.1, hnext.mpr h.2⟩⟩
    obtain ⟨d, hd, hmax, hn⟩ := h
    obtain rfl : c = d := Option.some.inj (hc.symm.trans hd)
    exact ⟨hmax, hnext.mp hn⟩
  rw [hlast]
  split at hread
  · rename_i hbad
    refine ⟨fun hsafe => ?_, fun hnot => absurd hbad hnot⟩
    obtain ⟨d, -, hends⟩ := hsafe
    rw [hread] at hends
    exact absurd rfl hends
  · rename_i hnot
    refine ⟨fun _ => hnot, fun _ => ⟨c, hc, hread.mono fun t h => ?_⟩⟩
    exact ⟨h.2.own, h.2.others, h.2.reset⟩

def oneBlock (as : List (BlkAct Unit Unit Unit)) : Option (Blk Unit Unit Unit) :=
  run (blkStep ⟨1, fun _ => 16, fun _ => 17, fun _ => 0, fun _ => 1000⟩)
    (initBlk (fun _ => ⟨(), 7, 0x301, false, false, 1, false, none, none, none, none⟩) fun _ =>
      ⟨0, 0, 0, 0, 0, 0, none, none⟩)
    (.call () READ () :: List.replicate 4 (.go () true) ++ as)

theorem seventh_error_unsafe :
    ∃ s, oneBlock (List.replicate 6 (.interrupt true true)) = some s ∧ s.hd.doHd = true ∧
    s.hd.current = some 31 ∧
      readIntr ⟨1, fun _ => 16, fun _ => 17, fun _ => 0, fun _ => 1000⟩ true true
        { s.hd with doHd := false } =
        .error .nullRequest ∧
      ¬ ErrorPathSafe ⟨1, fun _ => 16, fun _ => 17, fun _ => 0, fun _ => 1000⟩ true true s.hd := by
  have hrun : (oneBlock (List.replicate 6 (.interrupt true true))).any fun s => s.hd.doHd && decide
    (s.hd.current = some 31) &&
      match readIntr ⟨1, fun _ => 16, fun _ => 17, fun _ => 0, fun _ => 1000⟩ true true
        { s.hd with doHd := false } with
      | .error f => decide (f = .nullRequest)
      | .ok _ => false := by
    decide +kernel
  obtain ⟨s, hs, hprop⟩ := (Option.any_eq_true _ _).mp hrun
  simp only [Bool.and_eq_true, decide_eq_true_eq] at hprop
  obtain ⟨⟨hout, hc⟩, hread⟩ := hprop
  split at hread
  · rename_i f hf
    obtain rfl := of_decide_eq_true hread
    refine ⟨s, hs, hout, hc, hf, fun ⟨c, _, hends⟩ => ?_⟩
    rw [hf] at hends
    exact hends rfl
  · cases hread

theorem sixth_error_safe :
    ∃ s, oneBlock (List.replicate 5 (.interrupt true true)) = some s ∧
      ErrorPathSafe ⟨1, fun _ => 16, fun _ => 17, fun _ => 0, fun _ => 1000⟩ true true s.hd := by
  have hrun : (oneBlock (List.replicate 5 (.interrupt true true))).any fun s => s.hd.doHd ∧
    s.hd.current = some 31 ∧
      (s.hd.io.request 31).errors = 5 := by
    decide +kernel
  obtain ⟨s, hs, hprop⟩ := (Option.any_eq_true _ _).mp hrun
  obtain ⟨hout, hc, herrors⟩ := of_decide_eq_true hprop
  refine ⟨s, hs, (error_path_safe_iff hs hout true true).mpr fun ⟨_, c, hc', hmax, _⟩ => ?_⟩
  obtain rfl : 31 = c := Option.some.inj (hc.symm.trans hc')
  rw [herrors] at hmax
  exact absurd hmax (by decide)

end Processes
end Hios.BlkDrv
