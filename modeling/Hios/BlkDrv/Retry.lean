import Hios.BlkDrv.Transfer

/-! When a READ survives the errors of the disk: `do_hd_request` admits a request
again on every retry, by a sector number that the first half has already moved. -/
namespace Hios.BlkDrv
open Hios.Fs Hios.LinkedList Hios.Outcome Hios.Run
variable {β : Type} {disk : Geometry} {sectors : Nat → Nat → Sector} {nullErrors : Nat}
variable {io : Io β Block} {l l' l₁ l₂ : List Slot} {c i : Slot} {b : β}

/-- The driver, the errors since the last good sector, the good sectors so far, and
the buffers that reads were asked for. -/
structure Watched (β : Type) where
  drive : Drive β
  since : Nat
  goods : Nat
  asked : List β

def Watched.next (s : Watched β) (a : DriveAct β) (drive : Drive β) : Watched β :=
  match a with
  | .read _ b => { s with drive := drive, asked := b :: s.asked }
  | .interrupt true => { s with drive := drive, since := 0, goods := s.goods + 1 }
  | .interrupt false => { s with drive := drive, since := s.since + 1 }
  | .touch _ _ => { s with drive := drive }

def Transient (s : Watched β) : DriveAct β → Prop
  | .interrupt false => s.since + 1 < MAX_ERRORS
  | _ => True

instance (s : Watched β) : DecidablePred (Transient s)
  | .interrupt false => inferInstanceAs (Decidable (s.since + 1 < MAX_ERRORS))
  | .interrupt true => inferInstanceAs (Decidable True)
  | .read _ _ => inferInstanceAs (Decidable True)
  | .touch _ _ => inferInstanceAs (Decidable True)

def Inside (disk : Disk) (h : BufferHead β Block) : Prop :=
  minorOf h.bDev < 5 * disk.nrHd ∧ 2 * h.bBlocknr + 2 ≤ disk.nrSects (minorOf h.bDev)

def EndsWell (disk : Disk) (e : Ended β) : Prop :=
  ∀ h, e.head = some h → Inside disk h → e.uptodate = true

def Served (disk : Disk) (s : Watched β) : Prop := ∀ e ∈ s.drive.ended, EndsWell disk e

/-- No error comes while the second sector of a partition's last block is awaited. -/
def Spares (disk : Disk) (s : Watched β) (a : DriveAct β) : Prop :=
  match a with
  | .interrupt false => ∀ c b, s.drive.hd.current = some c → (s.drive.hd.io.request c).bh = some b →
      ¬ ((s.drive.hd.io.request c).nrSectors = 1 ∧ 2 * (s.drive.hd.io.bh b).bBlocknr + 2 =
        disk.nrSects (minorOf (s.drive.hd.io.bh b).bDev))
  | _ => True

def sectorsLeft (io : Io β Block) (l : List Slot) : Nat :=
  (l.map fun i => (io.request i).nrSectors).sum

def seen (s : Drive β) (l : List Slot) : List (Option β) :=
  s.ended.map (·.request.bh) ++ l.map fun i => (s.hd.io.request i).bh

/-- Errors of the first request are errors since the last good sector; nothing that
was asked for is lost. -/
structure Watch (disk : Disk) (sectors : Nat → Nat → Sector) (s : Watched β) (l : List Slot) :
  Prop where
  running : Running disk sectors s.drive l
  errors : ∀ c ∈ l.head?, (s.drive.hd.io.request c).errors ≤ s.since
  buffers : (seen s.drive l).Perm (s.asked.map some)
  left : s.goods + sectorsLeft s.drive.hd.io l ≤ 2 * s.asked.length

theorem left_congr {io' : Io β Block}
    (h : ∀ i ∈ l, (io'.request i).nrSectors = (io.request i).nrSectors) :
    sectorsLeft io' l = sectorsLeft io l := by
  unfold sectorsLeft
  rw [List.map_congr_left h]

theorem Settled.buffers {u t : Drive β} (h : Settled disk.toDisk sectors u l t l₁ l₂) :
    seen t l₂ = seen u l := by
  have hkept : l₂.map (fun i => (t.hd.io.request i).bh) = l₂.map fun i => (u.hd.io.request i).bh :=
    List.map_congr_left fun i hi => by rw [h.kept i hi]
  simp only [seen, h.ended, hkept, h.split, List.map_append, List.map_map, List.append_assoc]
  rfl

theorem Settled.left_le {u t : Drive β} (h : Settled disk.toDisk sectors u l t l₁ l₂) :
    sectorsLeft t.hd.io l₂ ≤ sectorsLeft u.hd.io l := by
  have hkept : sectorsLeft t.hd.io l₂ = sectorsLeft u.hd.io l₂ := left_congr fun i hi => by
    rw [h.kept i hi]
  rw [hkept, h.split]
  simp [sectorsLeft]

theorem Settled.mem {u t : Drive β} (h : Settled disk.toDisk sectors u l t l₁ l₂)
    (hi : i ∈ l₁ ∨ i ∈ l₂) : i ∈ l := by
  rw [h.split]
  exact List.mem_append.mpr hi

theorem ReadOf.endsWell_of_rejects (h : ReadOf disk.toDisk sectors io i b 0)
    (hrej : Rejects disk.toDisk (io.request i)) : EndsWell disk.toDisk (io.ended false i) := by
  intro x hx hin
  obtain rfl : io.bh b = x := by simpa [Io.ended, h.bh] using hx
  have hsector := h.sector
  unfold Rejects at hrej
  rw [h.dev] at hrej
  unfold Inside at hin
  omega

theorem ReadOf.fresh {k : Nat} (h : ReadOf disk.toDisk sectors io i b k)
    (htwo : (io.request i).nrSectors = 2) :
    k = 0 := by
  have := h.nrSectors
  omega

/-- What `do_hd_request` refuses behind the first request ends as it should. -/
theorem Settled.endsWell {u t : Drive β} (h : Settled disk.toDisk sectors u l t l₁ l₂) (hi : i ∈ l₁)
    (htwo : (u.hd.io.request i).nrSectors = 2) : EndsWell disk.toDisk (u.hd.io.ended false i) := by
  obtain ⟨b, k, hb⟩ := h.queued.reads i (h.mem (.inl hi))
  obtain rfl : k = 0 := hb.fresh htwo
  exact hb.endsWell_of_rejects (h.rejected i hi)

theorem Settled.served {u t : Drive β} (h : Settled disk.toDisk sectors u l t l₁ l₂)
    (hu : ∀ e ∈ u.ended, EndsWell disk.toDisk e)
    (htwo : ∀ i ∈ l₁, (u.hd.io.request i).nrSectors = 2) :
    ∀ e ∈ t.ended, EndsWell disk.toDisk e := by
  intro e he
  rw [h.ended] at he
  cases List.mem_append.mp he with
  | inl he => exact hu e he
  | inr he =>
    obtain ⟨i, hi, rfl⟩ := List.mem_map.mp he
    exact h.endsWell hi (htwo i hi)

/-- After the first request a state's errors, buffers and sectors are those of `u`. -/
theorem Watch.settle {s : Watched β} {u t : Drive β} (h : Settled disk.toDisk sectors u l t l₁ l₂)
    (herr : ∀ c ∈ l₂.head?, (u.hd.io.request c).errors ≤ s.since)
    (hbuf : (seen u l).Perm (s.asked.map some))
    (hleft : s.goods + sectorsLeft u.hd.io l ≤ 2 * s.asked.length) :
    Watch disk.toDisk sectors { s with drive := t } l₂ := by
  refine ⟨h.running, fun c hc => ?_, h.buffers ▸ hbuf, ?_⟩
  · have hkept := h.kept c (List.mem_of_mem_head? hc)
    simp only [hkept]
    exact herr c hc
  · have hle := h.left_le
    simp only
    omega

theorem Finished.buffers {s u : Drive β} {e : Ended β} (h : Finished s u c l e) :
    seen u l = seen s (c :: l) := by
  have hkept : l.map (fun i => (u.hd.io.request i).bh) = l.map fun i => (s.hd.io.request i).bh :=
    List.map_congr_left fun i hi => by rw [h.kept i hi]
  simp [seen, h.ended, h.bh, hkept]

theorem Finished.left {s u : Drive β} {e : Ended β} (h : Finished s u c l e) :
    sectorsLeft s.hd.io (c :: l) = (s.hd.io.request c).nrSectors + sectorsLeft u.hd.io l := by
  have hkept : sectorsLeft u.hd.io l = sectorsLeft s.hd.io l := left_congr fun i hi => by
    rw [h.kept i hi]
  rw [hkept]
  simp [sectorsLeft]

theorem Finished.errors {s u : Drive β} {e : Ended β} (h : Finished s u c l e)
    (hq : Queued disk.toDisk sectors s.hd.io (c :: l)) (hi : i ∈ l) :
    (u.hd.io.request i).nrSectors = 2 ∧ (u.hd.io.request i).errors = 0 := by
  rw [h.kept i hi]
  exact hq.tail_fresh i hi

variable [DecidableEq β]

def retryStep (disk : Disk) (sectors : Nat → Nat → Sector) (nullErrors : Nat) (s : Watched β)
    (a : DriveAct β) : Option (Watched β) :=
  if Transient s a then (driveStep disk sectors nullErrors s.drive a).map (s.next a) else none

def initWatched (bh : β → BufferHead β Block) (request : Slot → Request β) : Watched β :=
  ⟨initDrive bh request, 0, 0, []⟩

/-- A step of one kind keeps `Watch`, and serves what it ends exactly when it is spared. -/
def StepKeeps (disk : Disk) (sectors : Nat → Nat → Sector) (s : Watched β) (a : DriveAct β)
    (t : Drive β) : Prop :=
  (∃ l, Watch disk sectors (s.next a t) l) ∧
    (Served disk s → (Served disk (s.next a t) ↔ Spares disk s a))

theorem Watch.read {s : Watched β} {req : Slot} (h : Watch disk.toDisk sectors s l)
    (hen : driveEnabled s.drive (.read req b)) :
    Ends (· = Fault.badSector) (StepKeeps disk.toDisk sectors s (.read req b))
      (s.drive.makeRequest disk.toDisk req b) := by
  refine (h.running.read hen).mono fun t ⟨u, l', hu, hperm, hkept, hnew, hcase⟩ => ?_
  have hleft : sectorsLeft u.hd.io l' = 2 + sectorsLeft s.drive.hd.io l := by
    have hsum : sectorsLeft u.hd.io l' = sectorsLeft u.hd.io (req :: l) :=
      List.Perm.sum_nat (hperm.map _)
    have htail : sectorsLeft u.hd.io l = sectorsLeft s.drive.hd.io l := left_congr fun i hi => by
      obtain ⟨n, hn⟩ := hkept i hi
      rw [hn]
    rw [hsum, ← htail]
    simp [sectorsLeft, hnew.2.1]
  have hbuf : (seen u l').Perm ((b :: s.asked).map some) := by
    have htail : l.map (fun i => (u.hd.io.request i).bh) = l.map fun i =>
      (s.drive.hd.io.request i).bh :=
      List.map_congr_left fun i hi => by
        obtain ⟨n, hn⟩ := hkept i hi
        rw [hn]
    have hqueue : (l'.map fun i => (u.hd.io.request i).bh).Perm
        (some b :: l.map fun i => (s.drive.hd.io.request i).bh) := by
      rw [← htail, ← hnew.1]
      exact hperm.map _
    have hall := (hqueue.append_left (u.ended.map (·.request.bh))).trans List.perm_middle
    rw [hu] at hall
    have hbufs : seen u l' = s.drive.ended.map (·.request.bh) ++ l'.map fun i =>
        (u.hd.io.request i).bh := by
      rw [seen, hu]
    rw [hbufs]
    exact hall.trans (h.buffers.cons (some b))
  have hgoods := h.left
  cases hcase with
  | inl hstart =>
    obtain ⟨rfl, l₁, l₂, ht⟩ := hstart
    obtain rfl : l' = [req] := List.perm_singleton.mp hperm
    have hone : ∀ i, i ∈ l₁ ∨ i ∈ l₂ → i = req := fun i hi => List.mem_singleton.mp (ht.mem hi)
    refine ⟨⟨l₂, ?_⟩, fun hs => iff_of_true (ht.served (hu ▸ hs) fun i hi => ?_) trivial⟩
    · refine Watch.settle (s := { s with asked := b :: s.asked }) ht (fun c hc => ?_) hbuf ?_
      · rw [hone c (.inr (List.mem_of_mem_head? hc)), hnew.2.2]
        exact Nat.zero_le _
      · simp only [List.length_cons]
        omega
    · rw [hone i (.inl hi)]
      exact hnew.2.1
  | inr hwait =>
    obtain ⟨hhead, rfl, ht⟩ := hwait
    refine ⟨⟨l', ht, fun c hc => ?_, hbuf, ?_⟩,
      fun hs => iff_of_true (fun e he => hs e (hu ▸ he)) trivial⟩
    · rw [hhead] at hc
      obtain ⟨n, hn⟩ := hkept c (List.mem_of_mem_head? hc)
      simp only [Watched.next, hn]
      exact h.errors c hc
    · simp only [Watched.next, List.length_cons]
      omega

theorem Watch.good {s : Watched β} (h : Watch disk.toDisk sectors s (c :: l)) :
    Ends (· = Fault.badSector) (StepKeeps disk.toDisk sectors s (.interrupt true))
      (s.drive.interrupt disk.toDisk sectors nullErrors true
        (commandFor disk.toDisk (s.drive.hd.io.request c))) := by
  have hgoods := h.left
  have hq := h.running.queued
  refine h.running.good.mono fun t ht => ?_
  cases ht with
  | inl hhalf =>
    obtain ⟨htwo, ht, hended, hself, hothers⟩ := hhalf
    have htail : l.map (fun i => (t.hd.io.request i).bh) = l.map fun i =>
      (s.drive.hd.io.request i).bh :=
      List.map_congr_left fun i hi => by rw [hothers i hi]
    have hsum : sectorsLeft t.hd.io l = sectorsLeft s.drive.hd.io l := left_congr fun i hi => by
      rw [hothers i hi]
    refine ⟨⟨c :: l, ht, fun d hd => ?_, ?_, ?_⟩,
      fun hs => iff_of_true (fun e he => hs e (hended ▸ he)) trivial⟩
    · obtain rfl : c = d := by simpa using hd
      simp [Watched.next, hself, Request.advance]
    · have hbuf := h.buffers
      simp only [seen, List.map_cons] at hbuf
      have hadv : (s.drive.hd.io.request c).advance.bh = (s.drive.hd.io.request c).bh := rfl
      simpa only [Watched.next, seen, List.map_cons, hended, htail, hself, hadv] using hbuf
    · have hone : (t.hd.io.request c).nrSectors = 1 := by simp [hself, Request.advance, htwo]
      simp only [sectorsLeft, List.map_cons, List.sum_cons] at hgoods hsum
      simp only [Watched.next, sectorsLeft, List.map_cons, List.sum_cons]
      omega
  | inr hdone =>
    obtain ⟨hone, u, e, l₁, l₂, hfin, he, -, ht⟩ := hdone
    have hsum := hfin.left
    refine ⟨⟨l₂, ?_⟩, fun hs => iff_of_true (ht.served (fun x hx => ?_) fun i hi => ?_) trivial⟩
    · refine Watch.settle (s := { s with since := 0, goods := s.goods + 1 }) ht (fun d hd => ?_)
        (hfin.buffers ▸ h.buffers) ?_
      · have hdl := ht.mem (.inr (List.mem_of_mem_head? hd))
        simp [(hfin.errors hq hdl).2]
      · simp only
        omega
    · rw [hfin.ended] at hx
      cases List.mem_append.mp hx with
      | inl hx => exact hs x hx
      | inr hx => exact List.mem_singleton.mp hx ▸ fun _ _ _ => he
    · exact (hfin.errors hq (ht.mem (.inl hi))).1

omit [DecidableEq β] in
/-- Of what a retry refuses, only the half-read first request could have been served. -/
theorem served_retry_iff {s : Watched β} {u t : Drive β}
    (h : Running disk.toDisk sectors s.drive (c :: l))
    (hio : u.hd.io = s.drive.hd.io.countError c) (hu : u.ended = s.drive.ended)
    (ht : Settled disk.toDisk sectors u (c :: l) t l₁ l₂) (hs : Served disk.toDisk s) :
    (∀ e ∈ t.ended, EndsWell disk.toDisk e) ↔ Spares disk.toDisk s (.interrupt false) := by
  obtain ⟨⟨hnr, hfits⟩, hpos, -, -⟩ := h.works c rfl
  have hcur : s.drive.hd.current = some c := h.queued.head_eq
  obtain ⟨b, k, hb⟩ := ht.queued.reads c List.mem_cons_self
  obtain ⟨b', k', hb'⟩ := h.queued.reads c List.mem_cons_self
  have hself : u.hd.io.request c =
      { s.drive.hd.io.request c with errors := (s.drive.hd.io.request c).errors + 1 } := by
    simp [hio, Io.countError, Io.setRequest]
  have hbh : u.hd.io.bh = s.drive.hd.io.bh := by rw [hio]; rfl
  obtain rfl : b' = b := by
    have hsame := hb.bh
    rw [hself] at hsame
    exact Option.some.inj (hb'.bh.symm.trans hsame)
  have hdev : (s.drive.hd.io.request c).dev = (s.drive.hd.io.bh b').bDev := hb'.dev
  have hsector : (s.drive.hd.io.request c).sector = 2 * (s.drive.hd.io.bh b').bBlocknr + k' :=
    hb'.sector
  have hcount : (s.drive.hd.io.request c).nrSectors + k' = 2 := hb'.nrSectors
  rw [hdev] at hnr hfits
  have hrej : Rejects disk.toDisk (u.hd.io.request c) ↔
      disk.nrSects (minorOf (s.drive.hd.io.bh b').bDev) < (s.drive.hd.io.request c).sector + 2 := by
    simp only [Rejects, hself, hdev]
    omega
  constructor
  · intro hserved d x hd hx hlast
    obtain rfl : c = d := Option.some.inj (hcur.symm.trans hd)
    obtain rfl : b' = x := Option.some.inj (hb'.bh.symm.trans hx)
    have hmem : c ∈ l₁ := by
      cases l₁ with
      | nil =>
        have hhead : c ∈ l₂.head? := by
          have hsplit := ht.split
          simp only [List.nil_append] at hsplit
          simp [← hsplit]
        exact absurd (hrej.mpr (by omega)) (ht.accepted c hhead)
      | cons d l₁ =>
        have hsplit := ht.split
        simp only [List.cons_append, List.cons.injEq] at hsplit
        exact hsplit.1 ▸ List.mem_cons_self
    have hent : u.hd.io.ended false c ∈ t.ended := by
      rw [ht.ended]
      exact List.mem_append_right _ (List.mem_map_of_mem hmem)
    have hin : Inside disk.toDisk (u.hd.io.bh b') := by
      rw [hbh]
      exact ⟨hnr, by omega⟩
    have hfalse := hserved _ hent (u.hd.io.bh b') (by simp [Io.ended, hb.bh]) hin
    simp [Io.ended] at hfalse
  · intro hspare
    have hnot := hspare c b' hcur hb'.bh
    intro e he
    rw [ht.ended] at he
    cases List.mem_append.mp he with
    | inl he => exact hs e (hu ▸ he)
    | inr he =>
      obtain ⟨i, hi, rfl⟩ := List.mem_map.mp he
      have hil := ht.mem (.inl hi)
      cases hil with
      | head =>
        have hless := hrej.mp (ht.rejected c hi)
        have htwo : (u.hd.io.request c).nrSectors = 2 := by
          simp only [hself]
          omega
        exact ht.endsWell hi htwo
      | tail _ hil => exact ht.endsWell hi (ht.queued.tail_fresh i hil).1

/-- With fewer than `MAX_ERRORS` errors in a row a request is never given up for its errors. -/
theorem Watch.bad {s : Watched β} (h : Watch disk.toDisk sectors s (c :: l))
    (hfew : s.since + 1 < MAX_ERRORS) :
    Ends (· = Fault.badSector) (StepKeeps disk.toDisk sectors s (.interrupt false))
      (s.drive.interrupt disk.toDisk sectors nullErrors false
        (commandFor disk.toDisk (s.drive.hd.io.request c))) := by
  have hgoods := h.left
  have herr : (s.drive.hd.io.request c).errors ≤ s.since := h.errors c rfl
  have hcl := (List.nodup_cons.mp h.running.queued.nodup).1
  refine h.running.bad.mono fun t ht => ?_
  cases ht with
  | inr hlast => omega
  | inl hagain =>
    obtain ⟨-, u, l₁, l₂, hio, hu, ht⟩ := hagain
    have hbhs : ∀ i, (u.hd.io.request i).bh = (s.drive.hd.io.request i).bh := fun i => by
      by_cases hi : i = c
      · simp [hio, hi, Io.countError, Io.setRequest]
      · rw [hio, countError_other _ hi]
    have hsectors : ∀ i, (u.hd.io.request i).nrSectors =
        (s.drive.hd.io.request i).nrSectors := fun i => by
      by_cases hi : i = c
      · simp [hio, hi, Io.countError, Io.setRequest]
      · rw [hio, countError_other _ hi]
    have hbuf : seen u (c :: l) = seen s.drive (c :: l) := by simp [seen, hu, hbhs]
    have hsum : sectorsLeft u.hd.io (c :: l) = sectorsLeft s.drive.hd.io (c :: l) :=
      left_congr fun i _ => hsectors i
    refine ⟨⟨l₂, ?_⟩, fun hs => served_retry_iff h.running hio hu ht hs⟩
    refine Watch.settle (s := { s with since := s.since + 1 }) ht (fun d hd => ?_)
      (hbuf ▸ h.buffers) (hsum ▸ hgoods)
    have hdl := ht.mem (.inr (List.mem_of_mem_head? hd))
    cases hdl with
    | head =>
      simp only [hio, Io.countError, Io.setRequest, Function.update_self]
      omega
    | tail _ hdl => simp [(ht.queued.tail_fresh d hdl).2]

theorem Watch.perform (nullErrors : Nat) {s : Watched β} {a : DriveAct β}
    (h : Watch disk.toDisk sectors s l) (hen : driveEnabled s.drive a) (hfew : Transient s a) :
    Ends (· = Fault.badSector) (StepKeeps disk.toDisk sectors s a)
      (drivePerform disk.toDisk sectors nullErrors s.drive a) := by
  cases a with
  | read req b => exact h.read hen
  | touch b h' =>
    exact ⟨⟨l, h.running.touch hen.1, h.errors, h.buffers, h.left⟩,
      fun hs => iff_of_true hs trivial⟩
  | interrupt good =>
    cases l with
    | nil =>
      have hen : s.drive.command.isSome = true := hen
      rw [(h.running.idle rfl).1] at hen
      cases hen
    | cons c l =>
      obtain ⟨-, -, hcmd, -⟩ := h.running.works c rfl
      simp only [drivePerform, hcmd]
      cases good with
      | true => exact h.good
      | false => exact h.bad hfew

theorem Watch.step {s t : Watched β} {a : DriveAct β} (h : Watch disk.toDisk sectors s l)
    (hst : retryStep disk.toDisk sectors nullErrors s a = some t) :
    (∃ l, Watch disk.toDisk sectors t l) ∧
    (Served disk.toDisk s → (Served disk.toDisk t ↔ Spares disk.toDisk s a)) := by
  unfold retryStep at hst
  by_cases hfew : Transient s a
  · rw [if_pos hfew] at hst
    obtain ⟨d, hd, rfl⟩ := Option.map_eq_some_iff.mp hst
    unfold driveStep at hd
    by_cases hen : driveEnabled s.drive a
    · rw [if_pos hen] at hd
      have hends := h.perform nullErrors hen hfew
      cases hres : drivePerform disk.toDisk sectors nullErrors s.drive a with
      | error e => simp [hres, Except.toOption] at hd
      | ok u =>
        rw [hres] at hends hd
        obtain rfl : u = d := by simpa [Except.toOption] using hd
        exact hends
    · rw [if_neg hen] at hd
      cases hd
  · rw [if_neg hfew] at hst
    cases hst

omit [DecidableEq β] in
theorem watch_init (bh : β → BufferHead β Block) (request : Slot → Request β) :
    Watch disk.toDisk sectors (initWatched bh request) [] :=
  ⟨⟨⟨rfl, List.nodup_nil, by simp, by simp, by simp⟩, fun _ => ⟨rfl, rfl⟩, by simp⟩, by simp,
    by simp [seen, initWatched, initDrive], by simp [initWatched, sectorsLeft]⟩

omit [DecidableEq β] in
/-- While a command is outstanding a good sector is still to come; without one every
request has ended. -/
theorem Watch.ends {s : Watched β} (h : Watch disk.toDisk sectors s l) :
    (s.drive.command.isSome → s.goods < 2 * s.asked.length) ∧
      (s.drive.command = none → (s.drive.ended.map (·.request.bh)).Perm (s.asked.map some)) := by
  have hgoods := h.left
  cases l with
  | nil =>
    have hbuf := h.buffers
    refine ⟨fun hcmd => ?_, fun _ => by simpa [seen] using hbuf⟩
    rw [(h.running.idle rfl).1] at hcmd
    cases hcmd
  | cons c l =>
    obtain ⟨-, hpos, hcmd, -⟩ := h.running.works c rfl
    refine ⟨fun _ => ?_, fun hnone => ?_⟩
    · simp only [sectorsLeft, List.map_cons, List.sum_cons] at hgoods
      omega
    · rw [hcmd] at hnone
      cases hnone

theorem endRequest_fits (uptodate : Bool) (s : Drive β) :
    Ends (· ≠ Fault.badSector) (fun _ => True) (s.endRequest uptodate) := by
  unfold Drive.endRequest hdEndRequest
  cases s.hd.current with
  | none => exact Fault.noConfusion
  | some c =>
    dsimp only
    split
    · exact Fault.noConfusion
    · cases endRequest MAJOR_NR uptodate s.hd.io with
      | none => exact Fault.noConfusion
      | some io => trivial

theorem doHdRequest_fits (hheads : ∀ drive, disk.head drive ≤ 16) (fuel : Nat) (s : Drive β) :
    Ends (· ≠ Fault.badSector) (fun _ => True) (s.doHdRequest disk.toDisk fuel) := by
  induction fuel generalizing s with
  | zero => exact Fault.noConfusion
  | succ fuel ih =>
    unfold Drive.doHdRequest
    cases s.hd.current with
    | none => trivial
    | some c =>
      dsimp only
      split
      · exact Fault.noConfusion
      split
      · exact Fault.noConfusion
      split
      · exact (endRequest_fits false s).bind fun t _ => ih t
      split
      · exact Fault.noConfusion
      split
      · trivial
      split
      · rename_i hadm hzero _ _
        obtain ⟨hnr, -⟩ := not_or.mp hadm
        obtain ⟨-, hhead⟩ := not_or.mp hzero
        have hle := disk.nrHd_le
        have hmod := Nat.mod_lt
          (((s.hd.io.request c).sector + disk.startSect (minorOf (s.hd.io.request c).dev)) %
          2 ^ 32 / disk.sect (minorOf (s.hd.io.request c).dev / 5)) (Nat.pos_of_ne_zero hhead)
        have hbound := hheads (minorOf (s.hd.io.request c).dev / 5)
        simp only [Drive.hdOut, BlkDrv.hdOut]
        rw [if_neg (not_or.mpr ⟨by omega, by omega⟩)]
        trivial
      · exact Fault.noConfusion

theorem badRwInter_fits (nullErrors : Nat) (s : Drive β) :
    Ends (· ≠ Fault.badSector) (fun _ => True) (s.badRwInter nullErrors) := by
  unfold Drive.badRwInter
  cases s.hd.current with
  | none => exact Fault.noConfusion
  | some c =>
    dsimp only
    split
    · exact (endRequest_fits false _).bind fun t _ => trivial
    · trivial

theorem interrupt_fits (sectors : Nat → Nat → Sector) (nullErrors : Nat)
    (hheads : ∀ drive, disk.head drive ≤ 16) (good : Bool) (cmd : Command) (s : Drive β) :
    Ends (· ≠ Fault.badSector) (fun _ => True)
      (s.interrupt disk.toDisk sectors nullErrors good cmd) := by
  have hnext := fun u : Drive β => doHdRequest_fits hheads (NR_REQUEST + 1) u
  unfold Drive.interrupt
  dsimp only
  by_cases hdo : s.hd.doHd = true
  · rw [if_pos hdo]
    cases good with
    | true =>
      rw [if_pos rfl]
      unfold Drive.readIntr
      dsimp only
      split
      · exact Fault.noConfusion
      · generalize Request.advance _ = r
        split
        · trivial
        · exact (endRequest_fits true _).bind fun t _ => hnext t
    | false =>
      rw [if_neg Bool.false_ne_true]
      exact (badRwInter_fits nullErrors _).bind fun t _ => hnext t
  · rw [if_neg hdo]
    trivial

theorem Watch.goes_on {s : Watched β} (h : Watch disk.toDisk sectors s l)
    (hheads : ∀ drive, disk.head drive ≤ 16) (good : Bool) (hcmd : s.drive.command.isSome)
    (hfew : Transient s (.interrupt good)) :
    (retryStep disk.toDisk sectors nullErrors s (.interrupt good)).isSome := by
  obtain ⟨cmd, hcmd'⟩ := Option.isSome_iff_exists.mp hcmd
  have hen : driveEnabled s.drive (.interrupt good) := hcmd
  have hends := h.perform nullErrors hen hfew
  have hfits := interrupt_fits sectors nullErrors hheads good cmd s.drive
  unfold retryStep driveStep
  rw [if_pos hfew, if_pos hen]
  simp only [drivePerform, hcmd'] at hends ⊢
  cases hres : s.drive.interrupt disk.toDisk sectors nullErrors good cmd with
  | ok t => rfl
  | error e =>
    rw [hres] at hends hfits
    exact absurd hends hfits

/-- With fewer than `MAX_ERRORS` errors between two good sectors, the requests for blocks
inside their partition end well exactly in the runs where no error comes while the second
sector of a partition's last block is awaited. Every request does end: as long as one has
not, the controller works, its interrupts are served, and fewer good sectors have come
than were asked for. -/
theorem transient_errors_survived_iff (disk : Geometry) (sectors : Nat → Nat → Sector)
    (nullErrors : Nat) (bh : β → BufferHead β Block) (request : Slot → Request β)
    (as : List (DriveAct β)) :
    (Always (retryStep disk.toDisk sectors nullErrors) (Served disk.toDisk)
      (initWatched bh request) as ↔
      StepsMeet (retryStep disk.toDisk sectors nullErrors) (Spares disk.toDisk)
        (initWatched bh request) as) ∧
    ∀ t, run (retryStep disk.toDisk sectors nullErrors) (initWatched bh request) as = some t →
      (t.drive.command = none → (t.drive.ended.map (·.request.bh)).Perm (t.asked.map some)) ∧
      (t.drive.command.isSome → t.goods < 2 * t.asked.length ∧ ((∀ drive, disk.head drive ≤ 16) →
        ∀ good, Transient t (.interrupt good) →
          (retryStep disk.toDisk sectors nullErrors t (.interrupt good)).isSome)) := by
  have hinv : ∀ (s : Watched β) (a : DriveAct β) (t : Watched β),
    (∃ l, Watch disk.toDisk sectors s l) →
      retryStep disk.toDisk sectors nullErrors s a = some t → ∃ l, Watch disk.toDisk sectors t l :=
    fun s a t ⟨l, hl⟩ hst => (hl.step hst).1
  have hinit : ∃ l, Watch disk.toDisk sectors (initWatched bh request) l :=
    ⟨[], watch_init bh request⟩
  constructor
  · refine always_iff_stepsMeet_of_inv hinv (fun s a t ⟨l, hl⟩ hs hst => (hl.step hst).2 hs) as
      hinit fun e he => ?_
    simp [initWatched, initDrive] at he
  · intro t ht
    obtain ⟨l, hl⟩ := run_inv hinv hinit ht
    exact ⟨hl.ends.2, fun hcmd =>
      ⟨hl.ends.1 hcmd, fun hheads good hfew => hl.goes_on hheads good hcmd hfew⟩⟩

/-- One error after the first sector of block 13599, the last of the partition, and the
request fails. -/
theorem last_block_not_retried :
    (run (retryStep oneDrive.toDisk (fun _ lba j => BitVec.ofNat 8 (lba + j)) 0)
      (initWatched (fun _ : Unit => ⟨fun _ => 0, 13599, 0x301, false, false, 1, false, none, none,
        none, none⟩)
        fun _ => ⟨0, 0, 0, 0, 0, 0, none, none⟩)
      [.read 31 (), .interrupt true, .interrupt false]).any (fun t =>
        t.drive.ended.map (fun e => (e.uptodate, e.head.map fun h => (h.bBlocknr, h.bDev))) =
          [(false, some (13599, 0x301))] ∧ t.since = 1) ∧
      2 * 13599 + 2 ≤ oneDrive.nrSects (minorOf 0x301) := by
  decide +kernel

end Hios.BlkDrv
