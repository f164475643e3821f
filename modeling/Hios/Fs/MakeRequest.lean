import Hios.BlkDrv.Controller
import Hios.BlkDrv.SlotWait
import Hios.Fs.CacheSync
import Hios.Fs.SyncDev

/-! `make_request` is embedded where processes share the request table, where they wait for a
slot of it, with the controller, and under the buffer cache. For an unlocked buffer and with
a free slot each of them does what `makeAtOnce` does. -/
namespace Hios.BlkDrv
open Hios.Fs Hios.Run
variable {β δ : Type} [DecidableEq β]

def makeAtOnce (major rw : Nat) (b : β) (io : Io β δ) : Option (Io β δ) :=
  if needless rw (io.bh b) then some io
  else (findRequest io.request rw).bind fun req =>
    addRequest major req (fillRequest req (io.bh b).bDev rw (io.bh b).bBlocknr (some b)
      (io.setBh b { io.bh b with bLock := true }))

variable {io io' : Io β δ} {b : β} {major rw : Nat} {req : Slot}

theorem unlockBuffer_lock (hopen : (io.bh b).bLock = false) :
    unlockBuffer b (io.setBh b { io.bh b with bLock := true }) = io := by
  have hself : { io.bh b with bLock := false } = io.bh b := by rw [← hopen]
  simp [unlockBuffer, Io.setBh, hself]

theorem makeAtOnce_cases (h : makeAtOnce major rw b io = some io') :
    needless rw (io.bh b) ∧ io' = io ∨
      ¬ needless rw (io.bh b) ∧ ∃ req, findRequest io.request rw = some req ∧
        addRequest major req (fillRequest req (io.bh b).bDev rw (io.bh b).bBlocknr (some b)
          (io.setBh b { io.bh b with bLock := true })) = some io' := by
  rw [makeAtOnce] at h
  split at h
  · rename_i hneed
    exact .inl ⟨hneed, (Option.some.inj h).symm⟩
  · rename_i hneed
    exact .inr ⟨hneed, Option.bind_eq_some_iff.mp h⟩

section Table
variable {π : Type} [DecidableEq π] {disk : Disk} {s : Blk π β δ} {p : π}

theorem blkStep_go (ready : Bool) :
    blkStep disk s (.go p ready) = (goOn disk p ready s).toOption := if_pos trivial

/-- The process is back, or about to add the request that it has filled. -/
theorem blk_makeAtOnce (hpc : s.pc p = .locking rw false b)
    (hopen : (s.hd.io.bh b).bLock = false) (h : makeAtOnce MAJOR_NR rw b s.hd.io = some io') :
    Comes (blkStep disk) (fun t => t.pc p = .outside ∧ t.hd.io = io' ∨
      ∃ req, t.pc p = .filled req b ∧ addRequest MAJOR_NR req t.hd.io = some io') s := by
  have hlock : blkStep disk s (.go p true) = some ((s.setIo
      (s.hd.io.setBh b { s.hd.io.bh b with bLock := true })).setPc p (.locked rw false b)) := by
    rw [blkStep_go, goOn, hpc]
    simp only [lockBuffer]
    rw [if_neg (by simp [hopen])]
    rfl
  refine .next _ _ hlock ?_
  set u := (s.setIo (s.hd.io.setBh b { s.hd.io.bh b with bLock := true })).setPc p
    (.locked rw false b) with hu
  have hio : u.hd.io = s.hd.io.setBh b { s.hd.io.bh b with bLock := true } := rfl
  have hupc : u.pc p = .locked rw false b := Function.update_self ..
  have hself : u.hd.io.bh b = { s.hd.io.bh b with bLock := true } := Function.update_self ..
  have hsame : needless rw (u.hd.io.bh b) ↔ needless rw (s.hd.io.bh b) := by rw [hself]; rfl
  obtain ⟨hneed, rfl⟩ | ⟨hneed, req, hreq, hadd⟩ := makeAtOnce_cases h
  · have hback : blkStep disk u (.go p true) = some ((u.setIo s.hd.io).setPc p .outside) := by
      rw [blkStep_go, goOn, hupc]
      simp only [checkBuffer]
      rw [if_pos (hsame.mpr hneed), unlockChecked, if_pos (by rw [hself]), hio,
        unlockBuffer_lock hopen]
      rfl
    exact .next _ _ hback (.refl (.inl ⟨Function.update_self .., rfl⟩))
  · have hcheck : blkStep disk u (.go p true) = some (u.setPc p (.searching rw false b)) := by
      rw [blkStep_go, goOn, hupc]
      simp only [checkBuffer]
      rw [if_neg (hneed ∘ hsame.mp)]
      rfl
    have hfill : blkStep disk (u.setPc p (.searching rw false b)) (.go p true) =
        some (((u.setPc p (.searching rw false b)).setIo (fillRequest req (s.hd.io.bh b).bDev rw
          (s.hd.io.bh b).bBlocknr (some b) u.hd.io)).setPc p (.filled req b)) := by
      have hspc : (u.setPc p (.searching rw false b)).pc p = .searching rw false b :=
        Function.update_self ..
      have hfound : findRequest u.hd.io.request rw = some req := hreq
      rw [blkStep_go, goOn, hspc]
      simp only [searchRequest, Blk.setPc, hfound, hself]
      rfl
    exact .next _ _ hcheck (.next _ _ hfill
      (.refl (.inr ⟨req, Function.update_self .., hadd⟩)))

end Table

section Slots
variable {τ : Type} [DecidableEq τ] {initTask t : τ} {s : SlotWait τ β δ}

omit [DecidableEq β] in
theorem findRequest_eq (request : Slot → Request β) (rw : Nat) :
    findRequest request rw = (scanSlots rw).find? fun i => (request i).dev < 0 := by
  rw [findRequest, scanSlots, ← List.filter_reverse, List.find?_filter]
  simp only [Bool.decide_and, Bool.decide_eq_true]

theorem testSlot_comes {c : MakeCall β} (left : List Slot)
    (hcall : s.call t = some { c with pos := .test left }) (hcur : s.current = some t)
    (hreq : left.find? (fun i => (s.io.request i).dev < 0) = some req) :
    Comes (slotStep initTask) (· = s.move t c (.found req)) s := by
  induction left generalizing s with
  | nil => cases hreq
  | cons i left ih =>
    by_cases hfree : (s.io.request i).dev < 0
    · rw [List.find?_cons_of_pos (by simpa using hfree)] at hreq
      obtain rfl := Option.some.inj hreq
      refine .next (.test t) _ ?_ (.refl rfl)
      simp [slotStep, testSlot, hcall, hcur, hfree, SlotWait.move]
    · rw [List.find?_cons_of_neg (by simpa using hfree)] at hreq
      refine .next (.test t) (s.move t c (.test left)) ?_ ?_
      · simp [slotStep, testSlot, hcall, hcur, hfree, SlotWait.move]
      · refine (ih (s := s.move t c (.test left)) (Function.update_self ..) hcur hreq).trans ?_
        rintro _ rfl
        exact .refl (by simp [SlotWait.move])

theorem slot_makeAtOnce (hcur : s.current = none) (hcall : s.call t = none)
    (hstate : s.wait.state t = .running) (hopen : (s.io.bh b).bLock = false)
    (hmajor : majorOf (s.io.bh b).bDev < NR_BLK_DEV)
    (hfn : s.io.requestFn (majorOf (s.io.bh b).bDev) = true) (hrw : rw = READ ∨ rw = WRITE)
    (h : makeAtOnce (majorOf (s.io.bh b).bDev) rw b s.io = some io') :
    Comes (slotStep initTask)
      (fun u => u.io = io' ∧ u.current = none ∧ u.call t = none) s := by
  have hplain : plainCommand rw = rw := by
    obtain rfl | rfl := hrw
    · rfl
    · rfl
  have hahead : ¬ (rw = READA ∨ rw = WRITEA) := by
    obtain rfl | rfl := hrw
    · decide
    · decide
  have hboth : ¬ (rw ≠ READ ∧ rw ≠ WRITE) := by tauto
  have hdriver : ¬ (NR_BLK_DEV ≤ majorOf (s.io.bh b).bDev ∨
      ¬ s.io.requestFn (majorOf (s.io.bh b).bDev) = true) := by simp [hmajor, hfn]
  have hcalled : slotStep initTask s (.call t rw b) =
      if needless rw (s.io.bh b) then some s
      else some ({ s with
        io := s.io.setBh b { s.io.bh b with bLock := true }
        current := some t }.move t ⟨majorOf (s.io.bh b).bDev, rw, false, b, .full⟩
          (.test (scanSlots rw))) := by
    simp only [slotStep, callMake]
    rw [if_pos ⟨hcur, hcall, hstate⟩, if_neg hdriver, hplain, if_neg (by simp [hopen]),
      if_neg hboth, if_neg (by simp [hopen]), decide_eq_false hahead]
  obtain ⟨hneed, rfl⟩ | ⟨hneed, req, hreq, hadd⟩ := makeAtOnce_cases h
  · rw [if_pos hneed] at hcalled
    exact .next _ _ hcalled (.refl ⟨rfl, hcur, hcall⟩)
  · rw [if_neg hneed] at hcalled
    refine .next _ _ hcalled ?_
    set c : MakeCall β := ⟨majorOf (s.io.bh b).bDev, rw, false, b, .full⟩
    set u : SlotWait τ β δ := { s with
      io := s.io.setBh b { s.io.bh b with bLock := true }
      current := some t }.move t c (.test (scanSlots rw)) with hu
    rw [findRequest_eq] at hreq
    refine (testSlot_comes (s := u) (c := c) (scanSlots rw) (Function.update_self ..) rfl
      hreq).trans ?_
    rintro _ rfl
    refine .next (.fill t) ((u.move t c (.found req)).leave t io') ?_
      (.refl ⟨rfl, rfl, Function.update_self ..⟩)
    have hself : u.io.bh b = { s.io.bh b with bLock := true } := Function.update_self ..
    have hadd' : addRequest c.major req (fillRequest req (u.io.bh c.bh).bDev c.rw
        (u.io.bh c.bh).bBlocknr (some c.bh) u.io) = some io' := by
      rw [show c.bh = b from rfl, hself]
      exact hadd
    simp only [slotStep, fillSlot, SlotWait.move, Function.update_self, Option.bind_eq_bind,
      Option.bind_some]
    refine (if_pos rfl).trans ?_
    rw [hadd']
    rfl

end Slots

section Drive
variable {disk : Disk} {s : Drive β}

theorem drive_makeAtOnce {io' : Io β Block} (hneed : ¬ needless READ (s.hd.io.bh b))
    (hreq : findRequest s.hd.io.request READ = some req)
    (h : makeAtOnce MAJOR_NR READ b s.hd.io = some io') :
    (s.makeRequest disk req b).map Drive.hd =
      if s.hd.current = none then
        doHdRequest disk true (NR_REQUEST + 1) { s.hd with io := io' }
      else .ok { s.hd with io := io' } := by
  obtain ⟨hneed', -⟩ | ⟨-, req', hreq', hadd⟩ := makeAtOnce_cases h
  · exact absurd hneed' hneed
  obtain rfl : req' = req := Option.some.inj (hreq'.symm.trans hreq)
  simp only [Drive.makeRequest, Io.setBh, Function.update_self] at hadd ⊢
  rw [hadd]
  by_cases hcur : s.hd.current = none
  · simp only [if_pos hcur]
    exact Drive.doHdRequest_hd disk (NR_REQUEST + 1) _
  · simp only [if_neg hcur]
    rfl

end Drive

end Hios.BlkDrv

namespace Hios.Fs
open Hios.BlkDrv
variable {β δ : Type} [DecidableEq β] {b : β} {major rw : Nat}

/-- While no driver goes on. -/
theorem BlockCache.makeRequest_atOnce {s : BlockCache β δ} {io' : Io β δ}
    (hopen : (s.io.bh b).bLock = false) (h : makeAtOnce major rw b s.io = some io') :
    ∃ n, s.makeRequest (fun _ => []) major rw b = some { s with io := io', clock := n } := by
  have hwait : s.waitOnBuffer (fun _ => []) b = some { s with clock := s.clock + 1 } :=
    if_neg (by simp [BlockCache.interrupts, hopen])
  rw [BlockCache.makeRequest, hwait]
  set u : BlockCache β δ := { s with clock := s.clock + 1 } with hu
  have hsame : needless rw ((u.setBh b { u.io.bh b with bLock := true }).io.bh b) ↔
      needless rw (s.io.bh b) := by
    simp only [BlockCache.setBh, Io.setBh, Function.update_self]
    rfl
  obtain ⟨hneed, rfl⟩ | ⟨hneed, req, hreq, hadd⟩ := makeAtOnce_cases h
  · refine ⟨s.clock + 1, ?_⟩
    simp only [Option.bind_eq_bind, Option.bind_some]
    rw [if_pos (hsame.mpr hneed)]
    have hback := unlockBuffer_lock hopen
    simp only [unlockBuffer, BlockCache.setBh] at hback ⊢
    rw [hback]
    rfl
  · refine ⟨s.clock + 2, ?_⟩
    have hsearch : ((u.setBh b { u.io.bh b with bLock := true }).interrupts
        (fun _ => [])).searchSlot (fun _ => []) rw (NR_REQUEST + 1) =
        some (req, (u.setBh b { u.io.bh b with bLock := true }).interrupts fun _ => []) := by
      rw [BlockCache.searchSlot]
      have hfound : findRequest ((u.setBh b { u.io.bh b with bLock := true }).interrupts
        fun _ => []).io.request rw = some req := hreq
      rw [hfound]
    simp only [Option.bind_eq_bind, Option.bind_some]
    rw [if_neg (hneed ∘ hsame.mp), hsearch, Option.bind_some]
    have hself : ((u.setBh b { u.io.bh b with bLock := true }).interrupts fun _ => []).io.bh b =
        { s.io.bh b with bLock := true } := Function.update_self ..
    dsimp only
    rw [hself]
    have hadd' : addRequest major req (fillRequest req (s.io.bh b).bDev rw (s.io.bh b).bBlocknr
        (some b) ((u.setBh b { u.io.bh b with bLock := true }).interrupts fun _ => []).io) =
        some io' := hadd
    rw [hadd']
    rfl

/-- While the driver goes on with nothing. -/
theorem SyncState.makeRequest_atOnce {s : SyncState β} {drv : Driver β} {io io' : Io β δ}
    (hhead : s.head = fun x => (io.bh x).core) (hopen : (io.bh b).bLock = false)
    (hdone : ∀ n c, drv.done n c = false) (hcmd : s.cmd b = none)
    (h : makeAtOnce major rw b io = some io') :
    ∃ t, s.makeRequest drv rw b = some t ∧ t.head = fun x => (io'.bh x).core := by
  have hfinish : ∀ (v : SyncState β) (p : β → Bool), v.cmd b = none →
      (∀ x, p x = true → x = b) →
      (v.finish drv p).head = v.head ∧ (v.finish drv p).cmd b = none := by
    intro v p hv hp
    refine ⟨funext fun x => if_neg ?_, ?_⟩
    · rintro ⟨hx, hsome⟩
      rw [hp x hx, hv] at hsome
      cases hsome
    · simp only [SyncState.finish]
      split
      · rfl
      · exact hv
  obtain ⟨hhead₁, hcmd₁⟩ := hfinish s (fun c => decide (c = b) || drv.done s.clock c) hcmd
    fun x hx => by simpa [hdone] using hx
  set v := s.finish drv fun c => decide (c = b) || drv.done s.clock c with hv
  have hself : v.head b = (io.bh b).core := by rw [hhead₁, hhead]
  have hwait : s.waitOnBuffer drv b = some v :=
    if_neg (by simp [← hv, hself, BufferHead.core, hopen])
  have hneedless : (rw = WRITE ∧ (v.head b).bDirt = false) ∨
      (rw = READ ∧ (v.head b).bUptodate = true) ↔ needless rw (io.bh b) := by
    rw [hself, needless, Bool.not_eq_true]
    rfl
  rw [SyncState.makeRequest, hwait, Option.bind_eq_bind, Option.bind_some]
  obtain ⟨hneed, rfl⟩ | ⟨hneed, req, hreq, hadd⟩ := makeAtOnce_cases h
  · rw [if_pos (hneedless.mpr hneed)]
    exact ⟨v, rfl, hhead₁.trans hhead⟩
  · rw [if_neg (hneed ∘ hneedless.mp)]
    obtain ⟨hhead₂, -⟩ := hfinish v (drv.done v.clock) hcmd₁ fun x hx => by simp [hdone] at hx
    refine ⟨_, rfl, ?_⟩
    obtain ⟨hbh, -⟩ := BlockCache.addRequest_bh hadd (b := b) (by simp [fillRequest, Io.setRequest])
    funext x
    simp only [SyncState.setHead, hhead₂, hself]
    rw [hbh]
    by_cases hx : x = b
    · subst hx
      simp [fillRequest, Io.setRequest, Io.setBh, BufferHead.core]
    · simp [fillRequest, Io.setRequest, Io.setBh, hx, hhead₁, hhead]

end Hios.Fs
