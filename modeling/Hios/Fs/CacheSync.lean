import Hios.Fs.CacheDriver

/-! `make_request` and `sync_dev` over the cache. -/
namespace Hios.Fs.BlockCache
open Hios.BlkDrv Hios.LinkedList Hios.Elevator
variable {β δ : Type} [DecidableEq β] {flat : Nat → Nat → δ} {mine : Option (β × Nat)}
  {q : Nat → List Slot}
variable {s t u : BlockCache β δ} {io io' : Io β δ} {major rw dev : Nat} {i c req : Slot} {b : β}

theorem addRequest_bh (h : addRequest major req io = some io') (hb : (io.request req).bh = some b) :
    io'.bh = Function.update io.bh b { io.bh b with bDirt := false } ∧
    io'.requestFn = io.requestFn := by
  have hself : ((io.setRequest req { io.request req with next := none }).request req).bh =
      some b := by
    simp [Io.setRequest, hb]
  simp only [addRequest, hself, Io.cleanBh] at h
  split at h
  · rw [← Option.some.inj h]
    exact ⟨rfl, rfl⟩
  · obtain ⟨tmp, -, rfl⟩ := Option.map_eq_some_iff.mp h
    exact ⟨rfl, rfl⟩

/-- The request that `make_request` makes of its buffer. -/
def requestFor (rw : Nat) (b : β) (h : BufferHead β δ) : Request β :=
  ⟨h.bDev, rw, 0, h.bBlocknr * 2 % 2 ^ 32, 2, 0, some b, none⟩

structure Added (major : Nat) (req : Slot) (r : Request β) (b : β) (q : Nat → List Slot)
  (io io' : Io β δ) (l : List Slot) : Prop where
  chain : Chain io'.next (io'.currentRequest major) l
  perm : l.Perm (req :: q major)
  current : io'.currentRequest = Function.update io.currentRequest major
    (some ((io.currentRequest major).getD req))
  new : ∃ n, io'.request req = { r with next := n }
  old : ∀ i, i ≠ req → ∃ n, io'.request i = { io.request i with next := n }
  others : ∀ i, i ∉ q major → i ≠ req → io'.request i = io.request i
  bh : io'.bh = Function.update io.bh b { io.bh b with bDirt := false }
  requestFn : io'.requestFn = io.requestFn

omit [DecidableEq β] in
theorem InQueues.not_mem {buffers : List β} (h : InQueues mine q buffers io)
    (hfree : (io.request req).dev < 0) (m : Nat) :
    req ∉ q m := by
  intro hin
  obtain ⟨x, -, hx⟩ := h.moves m req hin
  have hdev := hx.dev
  omega

theorem InQueues.addRequest {buffers : List β} (h : InQueues mine q buffers io) (major rw : Nat)
    (b : β) (hfree : (io.request req).dev < 0) :
    ∃ io' l, addRequest major req
      (fillRequest req (io.bh b).bDev rw (io.bh b).bBlocknr (some b) io) = some io' ∧
      Added major req (requestFor rw b (io.bh b)) b q io io' l := by
  have hreq := h.not_mem hfree major
  have hchain : Chain (fillRequest req (io.bh b).bDev rw (io.bh b).bBlocknr (some b) io).next
    (io.currentRequest major) (q major) :=
    (h.chain major).congr fun i hi => by simp only [Io.next, fillRequest_same hreq i hi]
  obtain ⟨io', hio, hlinks, hchain', hcur⟩ := addRequest_eq_insert hchain (h.nodup major) hreq
  have hself : (fillRequest req (io.bh b).bDev rw (io.bh b).bBlocknr (some b) io).request req =
    requestFor rw b (io.bh b) :=
    Function.update_self ..
  obtain ⟨hbh, hfn⟩ := addRequest_bh hio (b := b) (by rw [hself]; rfl)
  refine ⟨io', _, hio, hchain', insert_perm _ _ _, hcur, ?_, fun i hi => ?_,
    fun i hi hne => ?_, hbh, hfn⟩
  · obtain ⟨n, hn⟩ := hlinks.fields req
    exact ⟨n, by rw [hn, hself]⟩
  · obtain ⟨n, hn⟩ := hlinks.fields i
    exact ⟨n, by rw [hn, fillRequest_request _ _ _ _ _ _ hi]⟩
  · rw [hlinks.others i hi hne, fillRequest_request _ _ _ _ _ _ hne]

section Added
variable {r : Request β} {l : List Slot}

theorem Added.mem_update (hadd : Added major req r b q io io' l) (m : Nat) :
    i ∈ Function.update q major l m ↔ i ∈ q m ∨ (m = major ∧ i = req) := by
  by_cases hm : m = major
  · subst hm
    rw [Function.update_self, hadd.perm.mem_iff, List.mem_cons]
    tauto
  · rw [Function.update_of_ne hm]
    tauto

theorem Added.bh_eq (hadd : Added major req r b q io io' l) (hi : i ≠ req) :
    (io'.request i).bh = (io.request i).bh := by
  obtain ⟨k, hk⟩ := hadd.old i hi
  rw [hk]

theorem Added.bh_self (hadd : Added major req r b q io io' l) :
    io'.bh b = { io.bh b with bDirt := false } := by
  rw [hadd.bh, Function.update_self]

theorem Added.bh_other (hadd : Added major req r b q io io' l) {x : β} (hx : x ≠ b) :
    io'.bh x = io.bh x := by
  rw [hadd.bh, Function.update_of_ne hx]

theorem Added.current_kept (hadd : Added major req r b q io io' l) {m : Nat}
    (hc : io.currentRequest m = some c) :
    io'.currentRequest m = some c := by
  rw [hadd.current]
  by_cases hm : m = major
  · subst hm
    rw [Function.update_self, hc]
    rfl
  · rwa [Function.update_of_ne hm]

/-- The request that is new moves its buffer. -/
theorem Added.moves (hadd : Added major req (requestFor rw b (io.bh b)) b q io io' l)
    (hmajor : majorOf (io.bh b).bDev = major) (hnamed : (io.bh b).bDev ≠ 0)
    (hblock : (io.bh b).bBlocknr < 2 ^ 31) (hlock : (io.bh b).bLock = true)
    (hready : Ready rw (io.bh b)) :
    Moves io' major req b := by
  obtain ⟨n, hnew⟩ := hadd.new
  have hself := hadd.bh_self
  refine ⟨?_, ?_, ?_, ?_, ?_, ?_, ?_⟩
  · rw [hnew]
    rfl
  · rw [hnew, hself]
    rfl
  · rw [hnew, hself]
    simp only [requestFor]
    omega
  · rw [hself]
    exact hmajor
  · rw [hself]
    exact hnamed
  · rw [hself]
    exact hlock
  · rw [hnew, hself]
    simpa [requestFor, Ready] using hready.imp_left fun hr => ⟨hr.1, hr.2.1⟩

theorem Added.apart {buffers : List β} (h : InQueues (some (b, rw)) q buffers io)
    (hfree : (io.request req).dev < 0)
    (hadd : Added major req (requestFor rw b (io.bh b)) b q io io' l) {m m' : Nat} {j : Slot}
    (hi : i ∈ Function.update q major l m) (hj : j ∈ Function.update q major l m')
    (he : (io'.request i).bh = (io'.request j).bh) :
    i = j := by
  have hold : ∀ m i, i ∈ q m → (io'.request i).bh = (io.request i).bh := fun m i hi =>
    hadd.bh_eq fun e => h.not_mem hfree m (e ▸ hi)
  obtain ⟨n, hnew⟩ := hadd.new
  have halone := (h.alone b rw rfl).2
  cases (hadd.mem_update m).mp hi with
  | inl hi =>
    cases (hadd.mem_update m').mp hj with
    | inl hj =>
      rw [hold m i hi, hold m' j hj] at he
      exact h.apart m i hi m' j hj he
    | inr hj =>
      obtain ⟨-, rfl⟩ := hj
      rw [hold m i hi, hnew] at he
      exact absurd he (halone m i hi)
  | inr hi =>
    obtain ⟨-, rfl⟩ := hi
    cases (hadd.mem_update m').mp hj with
    | inl hj =>
      rw [hold m' j hj, hnew] at he
      exact absurd he.symm (halone m' j hj)
    | inr hj => exact hj.2.symm

theorem Added.inQueues {buffers : List β}
    (h : InQueues (some (b, rw)) q buffers io) (hfree : (io.request req).dev < 0)
    (hb : b ∈ buffers) (hmajor : majorOf (io.bh b).bDev = major) (hlt : major < NR_BLK_DEV)
    (hnamed : (io.bh b).bDev ≠ 0) (hblock : (io.bh b).bBlocknr < 2 ^ 31)
    (hadd : Added major req (requestFor rw b (io.bh b)) b q io io' l) :
    InQueues none (Function.update q major l) buffers io' := by
  have hnot := h.not_mem hfree
  obtain ⟨⟨hlock, hready⟩, halone⟩ := h.alone b rw rfl
  have hne : ∀ m i, i ∈ q m → i ≠ req := fun m i hi e => hnot m (e ▸ hi)
  refine ⟨fun m => ?_, fun m => ?_, fun m hm => ?_, fun m i hi => ?_,
    fun m i hi n' j hj he => hadd.apart h hfree hi hj he,
    fun i hi => ?_, fun x hx hl => ?_,
    fun x r hr => by cases hr⟩
  · by_cases hm : m = major
    · subst hm
      rw [Function.update_self]
      exact hadd.chain
    · rw [Function.update_of_ne hm, hadd.current, Function.update_of_ne hm]
      refine (h.chain m).congr fun i hi => ?_
      have hout : i ∉ q major := fun hin => by
        obtain ⟨x, -, hx⟩ := h.moves m i hi
        exact hm (h.unique hi hx.bh hin hx.bh).2.symm
      simp only [Io.next, hadd.others i hout (hne m i hi)]
  · by_cases hm : m = major
    · subst hm
      rw [Function.update_self, hadd.perm.nodup_iff]
      exact List.nodup_cons.mpr ⟨hnot m, h.nodup m⟩
    · rw [Function.update_of_ne hm]
      exact h.nodup m
  · by_cases hmm : m = major
    · exact hmm ▸ hlt
    · rw [Function.update_of_ne hmm] at hm
      exact h.majors m hm
  · cases (hadd.mem_update m).mp hi with
    | inl hi =>
      obtain ⟨x, hx, hmoves⟩ := h.moves m i hi
      have hxb : x ≠ b := fun e => halone m i hi (e ▸ hmoves.bh)
      refine ⟨x, hx, hmoves.congr (hadd.old i (hne m i hi)) ?_⟩
      rw [hadd.bh_other hxb]
      exact .refl _
    | inr hi =>
      obtain ⟨rfl, rfl⟩ := hi
      exact ⟨b, hb, hadd.moves hmajor hnamed hblock hlock hready⟩
  · by_cases hir : i = req
    · exact ⟨major, (hadd.mem_update major).mpr (.inr ⟨rfl, hir⟩)⟩
    · obtain ⟨k, hk⟩ := hadd.old i hir
      rw [hk] at hi
      obtain ⟨m, hm⟩ := h.used i hi
      exact ⟨m, (hadd.mem_update m).mpr (.inl hm)⟩
  · by_cases hxb : x = b
    · subst hxb
      obtain ⟨n, hnew⟩ := hadd.new
      exact .inr ⟨major, req, (hadd.mem_update major).mpr (.inr ⟨rfl, rfl⟩), by rw [hnew]; rfl⟩
    · rw [hadd.bh_other hxb] at hl
      obtain ⟨r, he⟩ | ⟨m, i, hi, hix⟩ := h.locked x hx hl
      · exact absurd (congrArg Prod.fst (Option.some.inj he)).symm hxb
      · exact .inr ⟨m, i, (hadd.mem_update m).mpr (.inl hi),
          (hadd.bh_eq (hne m i hi)).trans hix⟩

end Added

theorem Consistent.added {l : List Slot} (h : Consistent flat (some (b, rw)) q s)
    (hfree : (s.io.request req).dev < 0) (hb : b ∈ s.buffers)
    (hmajor : majorOf (s.io.bh b).bDev = major) (hlt : major < NR_BLK_DEV)
    (hnamed : (s.io.bh b).bDev ≠ 0)
    (hadd : Added major req (requestFor rw b (s.io.bh b)) b q s.io io' l) :
    Consistent flat none (Function.update q major l) { s with io := io' } := by
  have hserved := h.agrees.served b hb hnamed
  have hqueues := hadd.inQueues h.queues hfree hb hmajor hlt hnamed hserved.2
  have hnot := h.queues.not_mem hfree
  obtain ⟨⟨hlock, hready⟩, halone⟩ := h.queues.alone b rw rfl
  obtain ⟨n, hnew⟩ := hadd.new
  have hmem : ∀ m i, i ∈ q m → i ∈ Function.update q major l m ∧ i ≠ req := fun m i hi =>
    ⟨(hadd.mem_update m).mpr (.inl hi), fun e => hnot m (e ▸ hi)⟩
  have hhead : ∀ x, (io'.bh x) = { s.io.bh x with bDirt := (io'.bh x).bDirt } ∧
    ((io'.bh x).bDirt = true → (s.io.bh x).bDirt = true) ∧
      (x ≠ b → io'.bh x = s.io.bh x) := fun x => by
    by_cases hxb : x = b
    · subst hxb
      simp [hadd.bh]
    · simp [hadd.bh, hxb]
  refine ⟨h.nodup, filed_congr h.filed rfl rfl rfl fun x => ?_, hqueues, fun x hx hdev => ?_,
    fun x hx hd => ?_, fun x hx hup => ?_,
    fun dev block => ?_, fun m d x hm hd hx hread => ?_, fun m hm => ?_⟩
  · change SamePlace _ (io'.bh x)
    rw [(hhead x).1]
    exact ⟨rfl, rfl, rfl⟩
  · rw [(hhead x).1] at hdev ⊢
    rw [hadd.requestFn]
    exact h.agrees.served x hx hdev
  · rw [(hhead x).1]
    exact h.agrees.dirty x hx ((hhead x).2.1 hd)
  · rw [(hhead x).1] at hup ⊢
    exact h.agrees.uptodate x hx hup
  · refine (h.agrees.disk dev block).imp_right ?_
    rintro ⟨x, hx, hxdev, hxblock, hdirty⟩
    refine ⟨x, hx, ?_, ?_, ?_⟩
    · rw [(hhead x).1]
      exact hxdev
    · rw [(hhead x).1]
      exact hxblock
    · cases hdirty with
      | inl hdirt =>
        by_cases hxb : x = b
        · subst hxb
          -- the write that is new is still to come
          have hwrite : rw = WRITE := by
            cases hready with
            | inl hr =>
              rw [hr.2.2] at hdirt
              cases hdirt
            | inr hw => exact hw.1
          refine .inr ⟨major, req, ?_, ?_, ?_, ?_⟩
          · rw [Function.update_self, hadd.perm.mem_iff]
            exact List.mem_cons_self
          · rw [hnew]
            rfl
          · rw [hnew]
            exact hwrite
          · rintro ⟨hm, hcur⟩
            obtain ⟨c, hc⟩ := Option.ne_none_iff_exists'.mp (h.agrees.idle major hm)
            obtain rfl : c = req := Option.some.inj ((hadd.current_kept hc).symm.trans hcur)
            exact hnot major (h.queues.head_mem hc)
        · rw [(hhead x).2.2 hxb]
          exact .inl hdirt
      | inr hpending =>
        obtain ⟨m, i, hi, hix, hwrite, hleft⟩ := hpending
        obtain ⟨hin, hne⟩ := hmem m i hi
        obtain ⟨k, hk⟩ := hadd.old i hne
        refine .inr ⟨m, i, hin, by rw [hk]; exact hix, by rw [hk]; exact hwrite, ?_⟩
        rintro ⟨hm, hcur⟩
        obtain ⟨c, hc⟩ := Option.ne_none_iff_exists'.mp (h.agrees.idle m hm)
        obtain rfl : c = i := Option.some.inj ((hadd.current_kept hc).symm.trans hcur)
        exact hleft ⟨hm, hc⟩
  · obtain ⟨c, hc⟩ := Option.ne_none_iff_exists'.mp (h.agrees.idle m hm)
    obtain rfl : c = d := Option.some.inj ((hadd.current_kept hc).symm.trans hd)
    obtain ⟨k, hk⟩ := hadd.old c (hmem m c (h.queues.head_mem hc)).2
    rw [hk] at hx hread
    rw [(hhead x).1]
    exact h.agrees.arrived m c x hm hc hx hread
  · obtain ⟨c, hc⟩ := Option.ne_none_iff_exists'.mp (h.agrees.idle m hm)
    rw [hadd.current_kept hc]
    exact Option.some_ne_none c

structure SameBytes (h h' : BufferHead β δ) : Prop where
  dev : h'.bDev = h.bDev
  blocknr : h'.bBlocknr = h.bBlocknr
  dirt : h'.bDirt = h.bDirt
  uptodate : h'.bUptodate = h.bUptodate
  data : h'.bData = h.bData

omit [DecidableEq β] in
theorem SameBytes.ready {h h' : BufferHead β δ} (hb : SameBytes h h') (hr : Ready rw h) :
    Ready rw h' := by
  rw [Ready, hb.uptodate, hb.dirt]
  exact hr

theorem Agrees.setBh {h' : BufferHead β δ} (h : Agrees flat q s) (hb : SameBytes (s.io.bh b) h') :
    Agrees flat q (s.setBh b h') := by
  have hsame : ∀ x, SameBytes (s.io.bh x) ((s.setBh b h').io.bh x) := fun x => by
    rw [setBh_bh]
    split
    · rename_i hx
      exact hx ▸ hb
    · exact ⟨rfl, rfl, rfl, rfl, rfl⟩
  refine ⟨fun x hx hdev => ?_, fun x hx hd => ?_, fun x hx hup => ?_, fun dev block => ?_,
    fun m d x hm hd hx hread => ?_, h.idle⟩
  · rw [(hsame x).dev] at hdev ⊢
    rw [(hsame x).blocknr]
    exact h.served x hx hdev
  · rw [(hsame x).dirt] at hd
    rw [(hsame x).uptodate]
    exact h.dirty x hx hd
  · rw [(hsame x).uptodate] at hup
    rw [(hsame x).dev, (hsame x).blocknr, (hsame x).data]
    exact h.uptodate x hx hup
  · refine (h.disk dev block).imp_right ?_
    rintro ⟨x, hx, hxdev, hxblock, hdirty⟩
    refine ⟨x, hx, (hsame x).dev.trans hxdev, (hsame x).blocknr.trans hxblock, ?_⟩
    rw [(hsame x).dirt]
    exact hdirty
  · rw [(hsame x).dev, (hsame x).blocknr, (hsame x).data]
    exact h.arrived m d x hm hd hx hread

theorem filed_setBh {h' : BufferHead β δ} (h : Filed s.caches) (hdev : h'.bDev = (s.io.bh b).bDev)
    (hblock : h'.bBlocknr = (s.io.bh b).bBlocknr) : Filed (s.setBh b h').caches := by
  have hset : (s.setBh b h').caches = s.caches.setHead b h'.core := by
    simp only [caches, Caches.setHead, BlockCache.setBh, Io.setBh, Caches.mk.injEq,
      true_and, and_true]
    funext x
    by_cases hx : x = b
    · subst hx
      simp only [Function.update_self]
    · simp only [Function.update_of_ne hx]
  rw [hset]
  exact h.setHead hdev hblock

theorem Consistent.setBh {h' : BufferHead β δ} (h : Consistent flat mine q s)
    (hb : SameBytes (s.io.bh b) h') (hlock : h'.bLock = (s.io.bh b).bLock) :
    Consistent flat mine q (s.setBh b h') :=
  ⟨h.nodup, filed_setBh h.filed hb.dev hb.blocknr, h.queues.setBh hlock fun _ =>
    ⟨hb.dev, hb.blocknr, hlock, fun _ => hb.ready⟩, h.agrees.setBh hb⟩

theorem Consistent.lock (h : Consistent flat none q s) (hopen : (s.io.bh b).bLock = false)
    (hready : Ready rw (s.io.bh b)) :
    Consistent flat (some (b, rw)) q (s.setBh b { s.io.bh b with bLock := true }) := by
  have hbytes : SameBytes (s.io.bh b) { s.io.bh b with bLock := true } := ⟨rfl, rfl, rfl, rfl, rfl⟩
  have hout : ∀ m, ∀ i ∈ q m, (s.io.request i).bh ≠ some b := fun m i hi hib => by
    have hlock := (h.queues.moves_of_bh hi hib).2.locked
    rw [hopen] at hlock
    cases hlock
  have hq := h.queues
  refine ⟨h.nodup, filed_setBh h.filed rfl rfl,
    ⟨hq.chain, hq.nodup, hq.majors, fun m i hi => ?_, hq.apart, hq.used, fun x hx hl => ?_,
    fun x r hr => ?_⟩, h.agrees.setBh hbytes⟩
  · obtain ⟨x, hx, hmoves⟩ := hq.moves m i hi
    have hxb : x ≠ b := fun e => hout m i hi (e ▸ hmoves.bh)
    refine ⟨x, hx, hmoves.congr ⟨_, rfl⟩ ?_⟩
    rw [setBh_bh, if_neg hxb]
    exact .refl _
  · by_cases hxb : x = b
    · exact .inl ⟨rw, by rw [hxb]⟩
    · rw [setBh_bh, if_neg hxb] at hl
      refine (hq.locked x hx hl).imp_left ?_
      rintro ⟨r, hr⟩
      cases hr
  · obtain ⟨rfl, rfl⟩ := Prod.mk.inj (Option.some.inj hr)
    rw [setBh_bh, if_pos rfl]
    exact ⟨⟨rfl, hbytes.ready hready⟩, hout⟩

structure Calm (s t : BlockCache β δ) : Prop where
  buffers : t.buffers = s.buffers
  requestFn : t.io.requestFn = s.io.requestFn
  place : ∀ b, SamePlace (s.io.bh b) (t.io.bh b)
  dirt : ∀ b, (t.io.bh b).bDirt = true → (s.io.bh b).bDirt = true
  uptodate : ∀ b, (s.io.bh b).bUptodate = true → (t.io.bh b).bUptodate = true

omit [DecidableEq β] in
theorem Waits.calm (h : Waits s t) : Calm s t :=
  ⟨h.buffers, h.requestFn, h.place, fun b hb => (h.dirt b).symm.trans hb, h.uptodate⟩

omit [DecidableEq β] in
theorem Calm.trans (h : Calm s t) (h' : Calm t u) : Calm s u :=
  ⟨h'.buffers.trans h.buffers, h'.requestFn.trans h.requestFn,
    fun b => (h.place b).trans (h'.place b), fun b hb => h.dirt b (h'.dirt b hb),
    fun b hb => h'.uptodate b (h.uptodate b hb)⟩

theorem calm_lock (s : BlockCache β δ) (b : β) (lock : Bool) :
    Calm s (s.setBh b { s.io.bh b with bLock := lock }) := by
  have hsame : ∀ x, ∃ l, (s.setBh b { s.io.bh b with bLock := lock }).io.bh x =
      { s.io.bh x with bLock := l } := fun x => by
    rw [setBh_bh]
    split
    · rename_i hx
      exact ⟨lock, by rw [hx]⟩
    · exact ⟨(s.io.bh x).bLock, rfl⟩
  refine ⟨rfl, rfl, fun x => ?_, fun x hx => ?_, fun x hx => ?_⟩
  all_goals obtain ⟨l, hl⟩ := hsame x
  · rw [hl]
    exact ⟨rfl, rfl, rfl⟩
  · rwa [hl] at hx
  · rwa [hl]

theorem lock_unlock (hopen : (s.io.bh b).bLock = false) :
    (s.setBh b { s.io.bh b with bLock := true }).setBh b
    { (s.setBh b { s.io.bh b with bLock := true }).io.bh b with bLock := false } = s := by
  have hself : { (s.setBh b { s.io.bh b with bLock := true }).io.bh b with bLock := false } =
      s.io.bh b := by
    rw [setBh_bh, if_pos rfl, ← hopen]
  rw [hself]
  simp only [BlockCache.setBh, Io.setBh, Function.update_idem, Function.update_eq_self]

theorem Added.calm {r : Request β} {l : List Slot} (hadd : Added major req r b q s.io io' l) :
    Calm s { s with io := io' } := by
  have hsame : ∀ x, ∃ d, io'.bh x = { s.io.bh x with bDirt := d } ∧
      (d = true → (s.io.bh x).bDirt = true) := fun x => by
    rw [hadd.bh]
    by_cases hx : x = b
    · subst hx
      exact ⟨false, Function.update_self .., fun hd => by cases hd⟩
    · exact ⟨(s.io.bh x).bDirt, Function.update_of_ne hx .., id⟩
  refine ⟨rfl, hadd.requestFn, fun x => ?_, fun x hx => ?_, fun x hx => ?_⟩
  all_goals obtain ⟨d, hd, hdirt⟩ := hsame x
  · change SamePlace _ (io'.bh x)
    rw [hd]
    exact ⟨rfl, rfl, rfl⟩
  · refine hdirt ?_
    rwa [hd] at hx
  · change (io'.bh x).bUptodate = true
    rwa [hd]

theorem Sound.makeRequest (pace : Pace) (h : Sound flat none s) (hrw : rw = READ ∨ rw = WRITE)
    (hb : b ∈ s.buffers) (hmajor : majorOf (s.io.bh b).bDev = major) (hlt : major < NR_BLK_DEV)
    (hnamed : (s.io.bh b).bDev ≠ 0) :
    ∃ t, s.makeRequest pace major rw b = some t ∧ Sound flat none t ∧ Calm s t ∧
      (rw = WRITE → (t.io.bh b).bDirt = false) ∧
      (rw = READ → (t.io.bh b).bLock = true ∨ (t.io.bh b).bUptodate = true) := by
  obtain ⟨t, ht, hgoes, hopen⟩ := h.waitOnBuffer pace hb fun rw e => by cases e
  have hlocked : (t.setBh b { t.io.bh b with bLock := true }).io.bh b =
      { t.io.bh b with bLock := true } := by
    rw [setBh_bh, if_pos rfl]
  simp only [BlockCache.makeRequest, ht, Option.bind_eq_bind, Option.bind_some]
  by_cases hneed : needless rw (t.io.bh b)
  · have hneed' : needless rw ((t.setBh b { t.io.bh b with bLock := true }).io.bh b) := by
      rw [hlocked]
      exact hneed
    rw [if_pos hneed', lock_unlock hopen]
    refine ⟨t, rfl, hgoes.sound, hgoes.waits.calm, fun hw => ?_, fun hr => .inr ?_⟩
    · subst hw
      simpa [needless, READ, WRITE] using hneed
    · subst hr
      simpa [needless, READ, WRITE] using hneed
  · have hneed' : ¬ needless rw ((t.setBh b { t.io.bh b with bLock := true }).io.bh b) := by
      rw [hlocked]
      exact hneed
    rw [if_neg hneed']
    obtain ⟨q, hq⟩ := hgoes.sound
    have hbt : b ∈ t.buffers := hgoes.waits.buffers ▸ hb
    have hready : Ready rw (t.io.bh b) := by
      cases hrw with
      | inl hr =>
        subst hr
        have hold : (t.io.bh b).bUptodate = false := by simpa [needless, READ, WRITE] using hneed
        refine .inl ⟨rfl, hold, ?_⟩
        by_contra hd
        have hup := hq.agrees.dirty b hbt (by simpa using hd)
        rw [hold] at hup
        cases hup
      | inr hw =>
        subst hw
        exact .inr ⟨rfl, hq.agrees.dirty b hbt (by simpa [needless, READ, WRITE] using hneed)⟩
    have hlock : Sound flat (some (b, rw)) (t.setBh b { t.io.bh b with bLock := true }) :=
      ⟨q, hq.lock hopen hready⟩
    have hint := hlock.interrupts pace
    obtain ⟨req, u, hu, hgoes', hfree⟩ :=
      hint.sound.searchSlot pace rw (NR_REQUEST + 1) (Nat.lt_succ_of_le (load_le _))
    have hall := hint.trans hgoes'
    have hplace : SamePlace (s.io.bh b) (u.io.bh b) := by
      have hcalm := (hgoes.waits.calm.trans (calm_lock t b true)).trans hall.waits.calm
      exact hcalm.place b
    obtain ⟨q', hq'⟩ := hall.sound
    have hbu : b ∈ u.buffers := hall.waits.buffers ▸ hbt
    obtain ⟨io', l, hio, hadd⟩ := hq'.queues.addRequest major rw b hfree
    have hmajor' : majorOf (u.io.bh b).bDev = major := by
      rw [hplace.1]
      exact hmajor
    have hnamed' : (u.io.bh b).bDev ≠ 0 := by
      rw [hplace.1]
      exact hnamed
    refine ⟨{ u with io := io' }, ?_, ⟨_, hq'.added hfree hbu hmajor' hlt hnamed' hadd⟩,
      ((hgoes.waits.calm.trans (calm_lock t b true)).trans hall.waits.calm).trans hadd.calm,
        fun _ => ?_, fun _ => .inl ?_⟩
    · simp only [hu, Option.bind_some, hio]
      rfl
    · simp [hadd.bh]
    · have hstill := (hq'.queues.alone b rw rfl).1.1
      simpa [hadd.bh] using hstill

theorem Sound.llRwBlock (pace : Pace) (h : Sound flat none s) (hrw : rw = READ ∨ rw = WRITE)
    (hb : b ∈ s.buffers) (hnamed : (s.io.bh b).bDev ≠ 0) :
    ∃ t, s.llRwBlock pace rw b = some t ∧ Sound flat none t ∧ Calm s t ∧
      (rw = WRITE → (t.io.bh b).bDirt = false) ∧
      (rw = READ → (t.io.bh b).bLock = true ∨ (t.io.bh b).bUptodate = true) := by
  obtain ⟨-, -, hlt, hfn⟩ : HasDriver s.io.requestFn (s.io.bh b).bDev := by
    obtain ⟨q, hq⟩ := h
    exact (hq.agrees.served b hb hnamed).1
  obtain ⟨t, ht, hpost⟩ := h.makeRequest pace hrw hb rfl hlt hnamed
  refine ⟨t, ?_, hpost⟩
  rw [BlockCache.llRwBlock, if_neg (by simp [hfn, Nat.not_le.mpr hlt])]
  exact ht

theorem Sound.syncBuffer (pace : Pace) (h : Sound flat none s) (dev : Nat) (hb : b ∈ s.buffers) :
    ∃ t, s.syncBuffer pace dev b = some t ∧ Sound flat none t ∧ Calm s t ∧
    ((s.io.bh b).bDev = dev → (t.io.bh b).bDirt = false) := by
  by_cases hdev : (s.io.bh b).bDev = dev
  · obtain ⟨t, ht, hgoes, -⟩ := h.waitOnBuffer pace hb fun rw e => by cases e
    have hdev' : (t.io.bh b).bDev = dev := (hgoes.waits.place b).1.trans hdev
    simp only [BlockCache.syncBuffer, hdev, ne_eq, not_true_eq_false, if_false, ht,
      Option.bind_eq_bind, Option.bind_some]
    by_cases hd : (t.io.bh b).bDirt = true
    · have hbt : b ∈ t.buffers := hgoes.waits.buffers ▸ hb
      have hnamed : (t.io.bh b).bDev ≠ 0 := by
        obtain ⟨q, hq⟩ := hgoes.sound
        exact (hq.agrees.uptodate b hbt (hq.agrees.dirty b hbt hd)).1
      obtain ⟨u, hu, hsound, hcalm, hclean, -⟩ := hgoes.sound.llRwBlock pace (.inr rfl) hbt hnamed
      exact ⟨u, by rw [if_pos ⟨hdev', hd⟩]; exact hu, hsound, hgoes.waits.calm.trans hcalm,
        fun _ => hclean rfl⟩
    · exact ⟨t, by rw [if_neg fun e => hd e.2]; rfl, hgoes.sound, hgoes.waits.calm,
        fun _ => by simpa using hd⟩
  · refine ⟨s, ?_, h, (Waits.refl s).calm, fun e => absurd e hdev⟩
    simp only [BlockCache.syncBuffer, hdev, ne_eq, not_false_eq_true, if_true]

theorem Sound.syncBuffers (pace : Pace) (h : Sound flat none s) (dev : Nat) (l : List β)
    (hl : ∀ b ∈ l, b ∈ s.buffers) :
    ∃ t, l.foldlM (BlockCache.syncBuffer pace dev) s = some t ∧ Sound flat none t ∧ Calm s t ∧
      ∀ b ∈ l, (s.io.bh b).bDev = dev → (t.io.bh b).bDirt = false := by
  induction l generalizing s with
  | nil => exact ⟨s, rfl, h, (Waits.refl s).calm, fun b hb => by cases hb⟩
  | cons b l ih =>
    obtain ⟨t, ht, hsound, hcalm, hclean⟩ := h.syncBuffer pace dev (hl b List.mem_cons_self)
    obtain ⟨u, hu, hsound', hcalm', hclean'⟩ :=
      ih hsound fun x hx => hcalm.buffers ▸ hl x (List.mem_cons_of_mem b hx)
    refine ⟨u, ?_, hsound', hcalm.trans hcalm', fun x hx hdev => ?_⟩
    · rw [List.foldlM_cons, ht]
      exact hu
    · cases List.mem_cons.mp hx with
      | inl e =>
        subst e
        by_contra hd
        have hdt := hcalm'.dirt x (by simpa using hd)
        rw [hclean hdev] at hdt
        cases hdt
      | inr hx => exact hclean' x hx ((hcalm.place x).1.trans hdev)

theorem Sound.syncDev (pace : Pace) (h : Sound flat none s) (dev : Nat) :
    ∃ t, s.syncDev pace dev = some t ∧ Sound flat none t ∧
    Calm s t ∧ ∀ b ∈ s.buffers, (s.io.bh b).bDev = dev → (t.io.bh b).bDirt = false := by
  obtain ⟨t, ht, hsound, hcalm, hclean⟩ := h.syncBuffers pace dev s.buffers fun _ => id
  obtain ⟨u, hu, hsound', hcalm', -⟩ := hsound.syncBuffers pace dev t.buffers fun _ => id
  refine ⟨u, ?_, hsound', hcalm.trans hcalm', fun b hb hdev => ?_⟩
  · simp only [BlockCache.syncDev, ht, Option.bind_eq_bind, Option.bind_some, hu]
  · by_contra hd
    have hdt := hcalm'.dirt b (by simpa using hd)
    rw [hclean b hb hdev] at hdt
    cases hdt

end Hios.Fs.BlockCache
