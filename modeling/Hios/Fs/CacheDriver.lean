import Hios.BlkDrv.QueueShape
import Hios.Fs.BlockCache

/-! What the drivers keep of the cache. `flat` has the bytes that each block is to have; they
are in the buffer if it is up to date, and on the disk unless the buffer is dirty or its
write is still to come. -/
namespace Hios.Fs.BlockCache
open Hios.BlkDrv Hios.LinkedList Hios.Elevator
variable {β δ : Type} {flat : Nat → Nat → δ} {mine : Option (β × Nat)} {q : Nat → List Slot}
variable {s t u : BlockCache β δ} {io : Io β δ} {major : Nat} {i c : Slot} {b : β}

/-- Device 0 is the mark of a free buffer. -/
def HasDriver (requestFn : Nat → Bool) (dev : Nat) : Prop :=
  dev ≠ 0 ∧ dev < 65536 ∧ majorOf dev < NR_BLK_DEV ∧ requestFn (majorOf dev) = true

instance (requestFn : Nat → Bool) (dev : Nat) : Decidable (HasDriver requestFn dev) :=
  inferInstanceAs (Decidable (_ ∧ _))

/-- A buffer that `rw` can be queued for: a read does not overwrite what is good, a write writes
what is. -/
def Ready (rw : Nat) (h : BufferHead β δ) : Prop :=
  (rw = READ ∧ h.bUptodate = false ∧ h.bDirt = false) ∨ (rw = WRITE ∧ h.bUptodate = true)

structure Moves (io : Io β δ) (major : Nat) (i : Slot) (b : β) : Prop where
  bh : (io.request i).bh = some b
  dev : (io.request i).dev = (io.bh b).bDev
  sector : (io.request i).sector = 2 * (io.bh b).bBlocknr
  major : majorOf (io.bh b).bDev = major
  named : (io.bh b).bDev ≠ 0
  locked : (io.bh b).bLock = true
  ready : Ready (io.request i).cmd (io.bh b)

/-- The lists `q` are the queues. `mine` is the buffer that a process has locked to queue it, with
its command. -/
structure InQueues (mine : Option (β × Nat)) (q : Nat → List Slot) (buffers : List β)
  (io : Io β δ) : Prop where
  chain : ∀ m, Chain io.next (io.currentRequest m) (q m)
  nodup : ∀ m, (q m).Nodup
  majors : ∀ m, q m ≠ [] → m < NR_BLK_DEV
  moves : ∀ m, ∀ i ∈ q m, ∃ b ∈ buffers, Moves io m i b
  apart : ∀ m, ∀ i ∈ q m, ∀ n, ∀ j ∈ q n, (io.request i).bh = (io.request j).bh → i = j
  used : ∀ i, 0 ≤ (io.request i).dev → ∃ m, i ∈ q m
  locked : ∀ b ∈ buffers, (io.bh b).bLock = true → (∃ rw, mine = some (b, rw)) ∨
    ∃ m, ∃ i ∈ q m, (io.request i).bh = some b
  alone : ∀ b rw, mine = some (b, rw) →
    ((io.bh b).bLock = true ∧ Ready rw (io.bh b)) ∧ ∀ m, ∀ i ∈ q m, (io.request i).bh ≠ some b

def Pending (q : Nat → List Slot) (s : BlockCache β δ) (b : β) : Prop :=
  ∃ m, ∃ i ∈ q m, (s.io.request i).bh = some b ∧ (s.io.request i).cmd = WRITE ∧
    ¬ (s.moved m = true ∧ s.io.currentRequest m = some i)

structure Agrees (flat : Nat → Nat → δ) (q : Nat → List Slot) (s : BlockCache β δ) : Prop where
  served : ∀ b ∈ s.buffers, (s.io.bh b).bDev ≠ 0 → HasDriver s.io.requestFn (s.io.bh b).bDev ∧
    (s.io.bh b).bBlocknr < 2 ^ 31
  dirty : ∀ b ∈ s.buffers, (s.io.bh b).bDirt = true → (s.io.bh b).bUptodate = true
  uptodate : ∀ b ∈ s.buffers, (s.io.bh b).bUptodate = true →
    (s.io.bh b).bDev ≠ 0 ∧ (s.io.bh b).bData = flat (s.io.bh b).bDev (s.io.bh b).bBlocknr
  disk : ∀ dev block : Nat, s.disk dev (2 * block) = flat dev block ∨
    ∃ b ∈ s.buffers, (s.io.bh b).bDev = dev ∧ (s.io.bh b).bBlocknr = block ∧
      ((s.io.bh b).bDirt = true ∨ Pending q s b)
  arrived : ∀ m c b, s.moved m = true → s.io.currentRequest m = some c →
    (s.io.request c).bh = some b →
    (s.io.request c).cmd = READ → (s.io.bh b).bData = flat (s.io.bh b).bDev (s.io.bh b).bBlocknr
  idle : ∀ m, s.moved m = true → s.io.currentRequest m ≠ none

structure Consistent (flat : Nat → Nat → δ) (mine : Option (β × Nat)) (q : Nat → List Slot)
  (s : BlockCache β δ) : Prop where
  nodup : s.buffers.Nodup
  filed : Filed s.caches
  queues : InQueues mine q s.buffers s.io
  agrees : Agrees flat q s

def Sound (flat : Nat → Nat → δ) (mine : Option (β × Nat)) (s : BlockCache β δ) : Prop :=
  ∃ q, Consistent flat mine q s

def SamePlace (h h' : BufferHead β δ) : Prop :=
  h'.bDev = h.bDev ∧ h'.bBlocknr = h.bBlocknr ∧ h'.bCount = h.bCount

structure Waits (s t : BlockCache β δ) : Prop where
  buffers : t.buffers = s.buffers
  chain : t.chain = s.chain
  free : t.free = s.free
  requestFn : t.io.requestFn = s.io.requestFn
  place : ∀ b, SamePlace (s.io.bh b) (t.io.bh b)
  dirt : ∀ b, (t.io.bh b).bDirt = (s.io.bh b).bDirt
  uptodate : ∀ b, (s.io.bh b).bUptodate = true → (t.io.bh b).bUptodate = true
  ended : ∀ b, (s.io.bh b).bLock = true → (t.io.bh b).bLock = false → (t.io.bh b).bUptodate = true

def load (s : BlockCache β δ) : Nat := (Finset.univ.filter fun i => 0 ≤ (s.io.request i).dev).card

theorem SamePlace.refl (h : BufferHead β δ) : SamePlace h h := ⟨rfl, rfl, rfl⟩

theorem SamePlace.trans {h h' h'' : BufferHead β δ} (hp : SamePlace h h') (hp' : SamePlace h' h'') :
    SamePlace h h'' :=
  ⟨hp'.1.trans hp.1, hp'.2.1.trans hp.2.1, hp'.2.2.trans hp.2.2⟩

theorem Waits.refl (s : BlockCache β δ) : Waits s s :=
  ⟨rfl, rfl, rfl, rfl, fun _ => .refl _, fun _ => rfl, fun _ => id,
    fun b hl hu => by rw [hl] at hu; cases hu⟩

theorem Waits.trans (h : Waits s t) (h' : Waits t u) : Waits s u := by
  refine ⟨h'.buffers.trans h.buffers, h'.chain.trans h.chain, h'.free.trans h.free,
    h'.requestFn.trans h.requestFn,
    fun b => (h.place b).trans (h'.place b), fun b => (h'.dirt b).trans (h.dirt b),
    fun b hb => h'.uptodate b (h.uptodate b hb), fun b hl hu => ?_⟩
  cases ht : (t.io.bh b).bLock with
  | true => exact h'.ended b ht hu
  | false => exact h'.uptodate b (h.ended b hl ht)

theorem filed_congr (h : Filed s.caches) (hbuffers : t.buffers = s.buffers)
    (hchain : t.chain = s.chain) (hfree : t.free = s.free)
    (hplace : ∀ b, SamePlace (s.io.bh b) (t.io.bh b)) : Filed t.caches := by
  have hdev : ∀ b, (t.caches.head b).bDev = (s.caches.head b).bDev := fun b => (hplace b).1
  have hblock : ∀ b, (t.caches.head b).bBlocknr = (s.caches.head b).bBlocknr :=
    fun b => (hplace b).2.1
  refine ⟨?_, fun n => ?_, fun n b => ?_, fun a ha b hb => ?_⟩
  · simp only [caches, hbuffers, hfree]
    exact h.free
  · simp only [caches, hchain]
    exact h.nodup n
  · rw [hdev, hblock]
    simp only [caches, hchain, hbuffers]
    exact h.mem n b
  · rw [hdev, hblock, hdev, hblock]
    simp only [caches, hbuffers] at ha hb
    exact h.unique a ha b hb

theorem InQueues.head_cons {buffers : List β} (h : InQueues mine q buffers io)
    (hc : io.currentRequest major = some c) :
    ∃ l, q major = c :: l := by
  have hhead := (h.chain major).head?
  rw [hc] at hhead
  exact List.head?_eq_some_iff.mp hhead

theorem InQueues.nil_iff {buffers : List β} (h : InQueues mine q buffers io) :
    io.currentRequest major = none ↔ q major = [] := by
  have hhead := (h.chain major).head?
  rw [← hhead, List.head?_eq_none_iff]

theorem InQueues.head_mem {buffers : List β} (h : InQueues mine q buffers io)
    (hc : io.currentRequest major = some c) :
    c ∈ q major := by
  obtain ⟨l, hl⟩ := h.head_cons hc
  exact hl ▸ List.mem_cons_self

theorem InQueues.unique {buffers : List β} {m n : Nat} {j : Slot} (h : InQueues mine q buffers io)
    (hi : i ∈ q m) (hib : (io.request i).bh = some b) (hj : j ∈ q n)
    (hjb : (io.request j).bh = some b) : j = i ∧ n = m := by
  have hij : i = j := h.apart m i hi n j hj (hib.trans hjb.symm)
  subst hij
  obtain ⟨x, -, hx⟩ := h.moves m i hi
  obtain ⟨y, -, hy⟩ := h.moves n i hj
  obtain rfl : x = y := Option.some.inj (hx.bh.symm.trans hy.bh)
  exact ⟨rfl, hy.major.symm.trans hx.major⟩

theorem InQueues.moves_of_bh {buffers : List β} (h : InQueues mine q buffers io) (hi : i ∈ q major)
    (hb : (io.request i).bh = some b) : b ∈ buffers ∧ Moves io major i b := by
  obtain ⟨x, hx, hmoves⟩ := h.moves major i hi
  obtain rfl : b = x := Option.some.inj (hb.symm.trans hmoves.bh)
  exact ⟨hx, hmoves⟩

structure SameWork (h h' : BufferHead β δ) : Prop where
  dev : h'.bDev = h.bDev
  blocknr : h'.bBlocknr = h.bBlocknr
  lock : h'.bLock = h.bLock
  ready : ∀ rw, Ready rw h → Ready rw h'

theorem SameWork.refl (h : BufferHead β δ) : SameWork h h := ⟨rfl, rfl, rfl, fun _ => id⟩

theorem Moves.congr {io' : Io β δ} (h : Moves io major i b)
    (hreq : ∃ n, io'.request i = { io.request i with next := n })
    (hb : SameWork (io.bh b) (io'.bh b)) : Moves io' major i b := by
  obtain ⟨n, hn⟩ := hreq
  refine ⟨?_, ?_, ?_, ?_, ?_, ?_, ?_⟩
  · rw [hn]
    exact h.bh
  · rw [hn, hb.dev]
    exact h.dev
  · rw [hn, hb.blocknr]
    exact h.sector
  · rw [hb.dev]
    exact h.major
  · rw [hb.dev]
    exact h.named
  · rw [hb.lock]
    exact h.locked
  · rw [hn]
    exact hb.ready _ h.ready

theorem InQueues.congr {buffers : List β} {io' : Io β δ} (h : InQueues mine q buffers io)
    (hreq : io'.request = io.request) (hcur : io'.currentRequest = io.currentRequest)
    (hlock : ∀ x, (io'.bh x).bLock = (io.bh x).bLock)
    (hbh : ∀ x, (io.bh x).bLock = true → SameWork (io.bh x) (io'.bh x)) :
    InQueues mine q buffers io' := by
  have hnext : io'.next = io.next := by
    funext i
    simp only [Io.next, hreq]
  refine ⟨fun m => ?_, h.nodup, h.majors, fun m i hi => ?_, fun m i hi n j hj => ?_, fun i hi => ?_,
    fun x hx hl => ?_,
    fun x rw hmine => ⟨⟨?_, ?_⟩, fun m i hi => ?_⟩⟩
  · rw [hnext, hcur]
    exact h.chain m
  · obtain ⟨x, hx, hmoves⟩ := h.moves m i hi
    exact ⟨x, hx, hmoves.congr ⟨(io.request i).next, by rw [hreq]⟩ (hbh x hmoves.locked)⟩
  · rw [hreq]
    exact h.apart m i hi n j hj
  · rw [hreq] at hi
    exact h.used i hi
  · rw [hlock] at hl
    simp only [hreq]
    exact h.locked x hx hl
  · rw [hlock]
    exact (h.alone x rw hmine).1.1
  · exact (hbh x (h.alone x rw hmine).1.1).ready rw (h.alone x rw hmine).1.2
  · rw [hreq]
    exact (h.alone x rw hmine).2 m i hi

variable [DecidableEq β]

@[simp] theorem setBh_bh (s : BlockCache β δ) (b x : β) (h : BufferHead β δ) :
    (s.setBh b h).io.bh x = if x = b then h else s.io.bh x := Function.update_apply ..

theorem InQueues.setBh {buffers : List β} {h' : BufferHead β δ} (h : InQueues mine q buffers s.io)
    (hlock : h'.bLock = (s.io.bh b).bLock)
    (hb : (s.io.bh b).bLock = true → SameWork (s.io.bh b) h') :
    InQueues mine q buffers (s.setBh b h').io := by
  refine h.congr rfl rfl (fun x => ?_) fun x hx => ?_
  all_goals rw [setBh_bh]
  · split
    · rename_i e
      exact e ▸ hlock
    · rfl
  · split
    · rename_i e
      subst e
      exact hb hx
    · exact .refl _

theorem endRequest_some (hc : io.currentRequest major = some c) (hb : (io.request c).bh = some b) :
    ∃ io', endRequest major true io = some io' ∧
    io'.request = Function.update io.request c { io.request c with dev := -1 } ∧
      io'.currentRequest = Function.update io.currentRequest major (io.next c) ∧
      io'.requestFn = io.requestFn ∧
      io'.bh = Function.update io.bh b { io.bh b with bUptodate := true, bLock := false } := by
  obtain ⟨io', hio, hreq, hcur⟩ := endRequest_eq true hc
  refine ⟨io', hio, hreq, hcur, ?_⟩
  simp only [endRequest, hc, hb, Option.bind_eq_bind, Option.bind_some, pure,
    Option.some.injEq] at hio
  subst hio
  simp [Io.finishBh, unlockBuffer, Io.setBh, Io.setCurrent, Io.setRequest]

theorem InQueues.ended {buffers : List β} {io' : Io β δ} {l : List Slot}
    (h : InQueues mine q buffers io) (hq : q major = c :: l) (hb : (io.request c).bh = some b)
    (hreq : io'.request = Function.update io.request c { io.request c with dev := -1 })
    (hcur : io'.currentRequest = Function.update io.currentRequest major (io.next c))
    (hbh : io'.bh = Function.update io.bh b { io.bh b with bUptodate := true, bLock := false }) :
    InQueues mine (Function.update q major l) buffers io' := by
  have hc : c ∈ q major := hq ▸ List.mem_cons_self
  have hnd := h.nodup major
  rw [hq] at hnd
  obtain ⟨hcl, hl⟩ := List.nodup_cons.mp hnd
  -- what is still queued was queued, and is not `c`
  have hmem : ∀ m i, i ∈ Function.update q major l m → i ∈ q m ∧ i ≠ c := by
    intro m i hi
    by_cases hm : m = major
    · subst hm
      rw [Function.update_self] at hi
      exact ⟨hq ▸ List.mem_cons_of_mem c hi, fun e => hcl (e ▸ hi)⟩
    · rw [Function.update_of_ne hm] at hi
      refine ⟨hi, ?_⟩
      rintro rfl
      exact hm (h.unique hc hb hi hb).2
  have hstay : ∀ m i, i ∈ q m → i ≠ c → i ∈ Function.update q major l m := by
    intro m i hi hne
    by_cases hm : m = major
    · subst hm
      rw [Function.update_self]
      rw [hq] at hi
      exact (List.mem_cons.mp hi).resolve_left hne
    · rw [Function.update_of_ne hm]
      exact hi
  have hother : ∀ i, i ≠ c → io'.request i = io.request i := fun i hi => by
    rw [hreq, Function.update_of_ne hi]
  have hnotb : ∀ m i, i ∈ Function.update q major l m →
      (io.request i).bh ≠ some b := fun m i hi hib =>
    (hmem m i hi).2 (h.unique hc hb (hmem m i hi).1 hib).1
  have hheads : ∀ x, x ≠ b → io'.bh x = io.bh x := fun x hx => by rw [hbh, Function.update_of_ne hx]
  refine ⟨fun m => ?_, fun m => ?_, fun m hm => ?_, fun m i hi => ?_, fun m i hi n j hj he => ?_,
    fun i hi => ?_, fun x hx hlock => ?_,
    fun x rw hmine => ?_⟩
  · by_cases hm : m = major
    · subst hm
      rw [hcur, Function.update_self, Function.update_self]
      have hchain := h.chain m
      rw [hq] at hchain
      exact hchain.2.congr fun i hi => by simp only [Io.next, hother i fun e => hcl (e ▸ hi)]
    · rw [hcur, Function.update_of_ne hm, Function.update_of_ne hm]
      refine (h.chain m).congr fun i hi => ?_
      have hne : i ≠ c := by
        rintro rfl
        exact hm (h.unique hc hb hi hb).2
      simp only [Io.next, hother i hne]
  · by_cases hm : m = major
    · subst hm
      rw [Function.update_self]
      exact hl
    · rw [Function.update_of_ne hm]
      exact h.nodup m
  · obtain ⟨i, hi⟩ := List.exists_mem_of_ne_nil _ hm
    exact h.majors m (List.ne_nil_of_mem (hmem m i hi).1)
  · obtain ⟨x, hx, hmoves⟩ := h.moves m i (hmem m i hi).1
    have hxb : x ≠ b := fun e => hnotb m i hi (e ▸ hmoves.bh)
    refine ⟨x, hx, hmoves.congr ⟨(io.request i).next, hother i (hmem m i hi).2⟩ ?_⟩
    rw [hheads x hxb]
    exact .refl _
  · rw [hother i (hmem m i hi).2, hother j (hmem n j hj).2] at he
    exact h.apart m i (hmem m i hi).1 n j (hmem n j hj).1 he
  · have hne : i ≠ c := by
      rintro rfl
      rw [hreq, Function.update_self] at hi
      simp at hi
    rw [hother i hne] at hi
    obtain ⟨m, hm⟩ := h.used i hi
    exact ⟨m, hstay m i hm hne⟩
  · have hxb : x ≠ b := by
      rintro rfl
      rw [hbh, Function.update_self] at hlock
      cases hlock
    rw [hheads x hxb] at hlock
    refine (h.locked x hx hlock).imp_right ?_
    rintro ⟨m, i, hi, hib⟩
    have hne : i ≠ c := by
      rintro rfl
      exact hxb (Option.some.inj (hib.symm.trans hb))
    exact ⟨m, i, hstay m i hi hne, by rw [hother i hne]; exact hib⟩
  · have hxb : x ≠ b := by
      rintro rfl
      exact (h.alone x rw hmine).2 major c hc hb
    rw [hheads x hxb]
    refine ⟨(h.alone x rw hmine).1, fun m i hi => ?_⟩
    rw [hother i (hmem m i hi).2]
    exact (h.alone x rw hmine).2 m i (hmem m i hi).1

omit [DecidableEq β] in
theorem Consistent.key_unique (h : Consistent flat mine q s) {x y : β} (hx : x ∈ s.buffers)
    (hy : y ∈ s.buffers) (hdev : (s.io.bh x).bDev ≠ 0)
    (hsame : (s.io.bh x).bDev = (s.io.bh y).bDev)
    (hblock : (s.io.bh x).bBlocknr = (s.io.bh y).bBlocknr) : x = y :=
  h.filed.unique x hx y hy hdev hsame hblock

omit [DecidableEq β] in
theorem Consistent.on_disk (h : Consistent flat mine q s) (hb : b ∈ s.buffers)
    (hdev : (s.io.bh b).bDev ≠ 0) (hclean : (s.io.bh b).bDirt = false) (hidle : ¬ Pending q s b) :
    s.disk (s.io.bh b).bDev (2 * (s.io.bh b).bBlocknr) = flat (s.io.bh b).bDev
      (s.io.bh b).bBlocknr := by
  refine (h.agrees.disk (s.io.bh b).bDev (s.io.bh b).bBlocknr).resolve_right ?_
  rintro ⟨x, hx, hxdev, hxblock, hdirty⟩
  obtain rfl : b = x := h.key_unique hb hx hdev hxdev.symm hxblock.symm
  cases hdirty with
  | inl hdirt =>
    rw [hclean] at hdirt
    cases hdirt
  | inr hpending => exact hidle hpending

theorem Consistent.transfer_read (h : Consistent flat mine q s)
    (hc : s.io.currentRequest major = some c)
    (hb : (s.io.request c).bh = some b) (hcmd : (s.io.request c).cmd = READ) :
    Consistent flat mine q
      { s.setBh b
          { s.io.bh b with bData := s.disk (s.io.request c).dev (s.io.request c).sector } with
        moved := Function.update s.moved major true } := by
  have hin := h.queues.head_mem hc
  obtain ⟨hbin, hmoves⟩ := h.queues.moves_of_bh hin hb
  obtain ⟨hold, hclean⟩ : (s.io.bh b).bUptodate = false ∧ (s.io.bh b).bDirt = false := by
    cases hmoves.ready with
    | inl hr => exact hr.2
    | inr hw =>
      rw [hcmd] at hw
      exact absurd hw.1 (by decide)
  have hidle : ¬ Pending q s b := by
    rintro ⟨m, i, hi, hib, hwrite, -⟩
    obtain ⟨rfl, -⟩ := h.queues.unique hin hb hi hib
    rw [hcmd] at hwrite
    exact absurd hwrite (by decide)
  have hdata := h.on_disk hbin hmoves.named hclean hidle
  rw [← hmoves.dev, ← hmoves.sector] at hdata
  set s' := s.setBh b { s.io.bh b with
    bData := s.disk (s.io.request c).dev (s.io.request c).sector } with hs'
  have hplace : ∀ x, SamePlace (s.io.bh x) (s'.io.bh x) := fun x => by
    rw [hs', setBh_bh]
    split
    · rename_i hx
      exact hx ▸ ⟨rfl, rfl, rfl⟩
    · exact .refl _
  have hflags : ∀ x, (s'.io.bh x).bDirt = (s.io.bh x).bDirt ∧
      (s'.io.bh x).bUptodate = (s.io.bh x).bUptodate := fun x => by
    rw [hs', setBh_bh]
    split
    · rename_i hx
      exact hx ▸ ⟨rfl, rfl⟩
    · exact ⟨rfl, rfl⟩
  have hother : ∀ x, x ≠ b → s'.io.bh x = s.io.bh x := fun x hx => by rw [hs', setBh_bh, if_neg hx]
  refine ⟨h.nodup, filed_congr h.filed rfl rfl rfl hplace, h.queues.setBh rfl fun _ =>
    ⟨rfl, rfl, rfl, fun _ => id⟩, fun x hx hdev => ?_, fun x hx hd => ?_, fun x hx hup => ?_,
    fun dev block => ?_, fun m d x hm hd hx hread => ?_, fun m hm => ?_⟩
  · rw [(hplace x).1] at hdev ⊢
    rw [(hplace x).2.1]
    exact h.agrees.served x hx hdev
  · rw [(hflags x).1] at hd
    rw [(hflags x).2]
    exact h.agrees.dirty x hx hd
  · rw [(hflags x).2] at hup
    have hxb : x ≠ b := by
      rintro rfl
      rw [hold] at hup
      cases hup
    rw [hother x hxb]
    exact h.agrees.uptodate x hx hup
  · refine (h.agrees.disk dev block).imp_right ?_
    rintro ⟨x, hx, hxdev, hxblock, hdirty⟩
    refine ⟨x, hx, (hplace x).1.trans hxdev, (hplace x).2.1.trans hxblock, ?_⟩
    rw [(hflags x).1]
    refine hdirty.imp_right ?_
    rintro ⟨m, i, hi, hix, hwrite, hleft⟩
    refine ⟨m, i, hi, hix, hwrite, ?_⟩
    rintro ⟨hm, hic⟩
    by_cases hmm : m = major
    · subst hmm
      obtain rfl : c = i := Option.some.inj (hc.symm.trans hic)
      exact absurd (hcmd.symm.trans hwrite) (by decide)
    · exact hleft ⟨(Function.update_of_ne hmm ..).symm.trans hm, hic⟩
  · by_cases hxb : x = b
    · subst hxb
      rw [hs', setBh_bh, if_pos rfl]
      exact hdata
    · rw [hother x hxb]
      refine h.agrees.arrived m d x ?_ hd hx hread
      have hmm : m ≠ major := by
        rintro rfl
        obtain rfl : c = d := Option.some.inj (hc.symm.trans hd)
        exact hxb (Option.some.inj (hx.symm.trans hb))
      exact (Function.update_of_ne hmm ..).symm.trans hm
  · by_cases hmm : m = major
    · subst hmm
      intro hnone
      exact absurd (hc.symm.trans hnone) (by simp)
    · exact h.agrees.idle m ((Function.update_of_ne hmm ..).symm.trans hm)

omit [DecidableEq β] in
theorem Consistent.transfer_write (h : Consistent flat mine q s)
    (hc : s.io.currentRequest major = some c) (hb : (s.io.request c).bh = some b)
    (hcmd : (s.io.request c).cmd ≠ READ) :
    Consistent flat mine q { s with
      disk := fun dev n => if dev = (s.io.request c).dev ∧
      n = (s.io.request c).sector then (s.io.bh b).bData else s.disk dev n
      moved := Function.update s.moved major true } := by
  have hin := h.queues.head_mem hc
  obtain ⟨hbin, hmoves⟩ := h.queues.moves_of_bh hin hb
  have hup : (s.io.bh b).bUptodate = true := by
    cases hmoves.ready with
    | inl hr => exact absurd hr.1 hcmd
    | inr hw => exact hw.2
  have hdata := (h.agrees.uptodate b hbin hup).2
  refine ⟨h.nodup, h.filed, h.queues, h.agrees.served, h.agrees.dirty, h.agrees.uptodate,
    fun dev block => ?_,
    fun m d x hm hd hx hread => ?_, fun m hm => ?_⟩
  · by_cases hkey : (s.io.bh b).bDev = dev ∧ (s.io.bh b).bBlocknr = block
    · obtain ⟨rfl, rfl⟩ := hkey
      exact .inl ((if_pos ⟨hmoves.dev.symm, hmoves.sector.symm⟩).trans hdata)
    · have hne : ¬ ((dev : Int) = (s.io.request c).dev ∧ 2 * block = (s.io.request c).sector) := by
        rintro ⟨hdev, hsector⟩
        rw [hmoves.dev] at hdev
        rw [hmoves.sector] at hsector
        exact hkey ⟨by omega, by omega⟩
      simp only [if_neg hne]
      refine (h.agrees.disk dev block).imp_right ?_
      rintro ⟨x, hx, hxdev, hxblock, hdirty⟩
      refine ⟨x, hx, hxdev, hxblock, hdirty.imp_right ?_⟩
      rintro ⟨m, i, hi, hix, hwrite, hleft⟩
      refine ⟨m, i, hi, hix, hwrite, ?_⟩
      rintro ⟨hm, hic⟩
      by_cases hmm : m = major
      · subst hmm
        obtain rfl : c = i := Option.some.inj (hc.symm.trans hic)
        obtain rfl : b = x := Option.some.inj (hb.symm.trans hix)
        exact hkey ⟨hxdev, hxblock⟩
      · exact hleft ⟨(Function.update_of_ne hmm ..).symm.trans hm, hic⟩
  · refine h.agrees.arrived m d x ?_ hd hx hread
    have hmm : m ≠ major := by
      rintro rfl
      obtain rfl : c = d := Option.some.inj (hc.symm.trans hd)
      exact hcmd hread
    exact (Function.update_of_ne hmm ..).symm.trans hm
  · by_cases hmm : m = major
    · subst hmm
      intro hnone
      exact absurd (hc.symm.trans hnone) (by simp)
    · exact h.agrees.idle m ((Function.update_of_ne hmm ..).symm.trans hm)

theorem Consistent.transfer (h : Consistent flat mine q s) (hc : s.io.currentRequest major = some c)
    (hb : (s.io.request c).bh = some b) :
    Consistent flat mine q { s.transfer c with moved := Function.update s.moved major true } := by
  by_cases hcmd : (s.io.request c).cmd = READ
  · have hread := h.transfer_read hc hb hcmd
    simpa only [BlockCache.transfer, hb, hcmd, if_true] using hread
  · have hwrite := h.transfer_write hc hb hcmd
    simpa only [BlockCache.transfer, hb, hcmd, if_false] using hwrite

theorem Consistent.ended {io' : Io β δ} (h : Consistent flat mine q s)
    (hc : s.io.currentRequest major = some c) (hb : (s.io.request c).bh = some b)
    (hmoved : s.moved major = true)
    (hreq : io'.request = Function.update s.io.request c { s.io.request c with dev := -1 })
    (hcur : io'.currentRequest = Function.update s.io.currentRequest major (s.io.next c))
    (hfn : io'.requestFn = s.io.requestFn)
    (hbh : io'.bh =
      Function.update s.io.bh b { s.io.bh b with bUptodate := true, bLock := false }) :
    ∃ q', Consistent flat mine q'
      { s with io := io', moved := Function.update s.moved major false } := by
  obtain ⟨l, hl⟩ := h.queues.head_cons hc
  have hin := h.queues.head_mem hc
  obtain ⟨hbin, hmoves⟩ := h.queues.moves_of_bh hin hb
  have hself : io'.bh b = { s.io.bh b with bUptodate := true, bLock := false } := by
    rw [hbh, Function.update_self]
  have hother : ∀ x, x ≠ b → io'.bh x = s.io.bh x := fun x hx => by
    rw [hbh, Function.update_of_ne hx]
  have hplace : ∀ x, SamePlace (s.io.bh x) (io'.bh x) ∧ (io'.bh x).bDirt = (s.io.bh x).bDirt ∧
      (io'.bh x).bData = (s.io.bh x).bData := fun x => by
    by_cases hx : x = b
    · subst hx
      rw [hself]
      exact ⟨⟨rfl, rfl, rfl⟩, rfl, rfl⟩
    · rw [hother x hx]
      exact ⟨.refl _, rfl, rfl⟩
  have hrequest : ∀ i, i ≠ c → io'.request i = s.io.request i := fun i hi => by
    rw [hreq, Function.update_of_ne hi]
  have hcurrent : ∀ m, m ≠ major → io'.currentRequest m = s.io.currentRequest m := fun m hm => by
    rw [hcur, Function.update_of_ne hm]
  have hnow : ∀ m, Function.update s.moved major false m = true → m ≠ major ∧
      s.moved m = true := fun m hm => by
    by_cases hmm : m = major
    · subst hmm
      rw [Function.update_self] at hm
      cases hm
    · exact ⟨hmm, (Function.update_of_ne hmm ..).symm.trans hm⟩
  refine ⟨Function.update q major l, h.nodup, filed_congr h.filed rfl rfl rfl fun x => (hplace x).1,
    h.queues.ended hl hb hreq hcur hbh, fun x hx hdev => ?_, fun x hx hd => ?_, fun x hx hup => ?_,
      fun dev block => ?_,
    fun m d x hm hd hx hread => ?_, fun m hm => ?_⟩
  · rw [(hplace x).1.1] at hdev ⊢
    rw [(hplace x).1.2.1, hfn]
    exact h.agrees.served x hx hdev
  · rw [(hplace x).2.1] at hd
    by_cases hxb : x = b
    · subst hxb
      rw [hself]
    · rw [hother x hxb]
      exact h.agrees.dirty x hx hd
  · by_cases hxb : x = b
    · subst hxb
      rw [hself]
      refine ⟨hmoves.named, ?_⟩
      cases hmoves.ready with
      | inl hr => exact h.agrees.arrived major c x hmoved hc hb hr.1
      | inr hw => exact (h.agrees.uptodate x hx hw.2).2
    · rw [hother x hxb] at hup ⊢
      exact h.agrees.uptodate x hx hup
  · refine (h.agrees.disk dev block).imp_right ?_
    rintro ⟨x, hx, hxdev, hxblock, hdirty⟩
    refine ⟨x, hx, (hplace x).1.1.trans hxdev, (hplace x).1.2.1.trans hxblock, ?_⟩
    rw [(hplace x).2.1]
    refine hdirty.imp_right ?_
    rintro ⟨m, i, hi, hix, hwrite, hleft⟩
    -- it is not the request that ends: that one has been transferred
    have hic : i ≠ c := by
      rintro rfl
      obtain ⟨-, rfl⟩ := h.queues.unique hin hix hi hix
      exact hleft ⟨hmoved, hc⟩
    refine ⟨m, i, ?_, ?_, ?_, ?_⟩
    · by_cases hmm : m = major
      · subst hmm
        rw [Function.update_self]
        rw [hl] at hi
        exact (List.mem_cons.mp hi).resolve_left hic
      · rw [Function.update_of_ne hmm]
        exact hi
    · rw [hrequest i hic]
      exact hix
    · rw [hrequest i hic]
      exact hwrite
    · rintro ⟨hm, hcm⟩
      obtain ⟨hmm, hmt⟩ := hnow m hm
      exact hleft ⟨hmt, (hcurrent m hmm).symm.trans hcm⟩
  · obtain ⟨hmm, hmt⟩ := hnow m hm
    have hdm : s.io.currentRequest m = some d := (hcurrent m hmm).symm.trans hd
    have hdin := h.queues.head_mem hdm
    have hdc : d ≠ c := by
      rintro rfl
      exact hmm (h.queues.unique hin hb hdin hb).2
    rw [hrequest d hdc] at hx hread
    have hxb : x ≠ b := by
      rintro rfl
      exact hdc (h.queues.unique hin hb hdin hx).1
    rw [hother x hxb]
    exact h.agrees.arrived m d x hmt hdm hx hread
  · obtain ⟨hmm, hmt⟩ := hnow m hm
    rw [hcurrent m hmm]
    exact h.agrees.idle m hmt

structure Goes (flat : Nat → Nat → δ) (mine : Option (β × Nat)) (s t : BlockCache β δ) : Prop where
  sound : Sound flat mine t
  waits : Waits s t
  load : t.load ≤ s.load

omit [DecidableEq β] in
theorem Goes.trans (h : Goes flat mine s t) (h' : Goes flat mine t u) : Goes flat mine s u :=
  ⟨h'.sound, h.waits.trans h'.waits, h'.load.trans h.load⟩

omit [DecidableEq β] in
theorem Sound.goes_refl (h : Sound flat mine s) : Goes flat mine s s := ⟨h, .refl s, le_rfl⟩

theorem advance_none (hc : s.io.currentRequest major = none) : s.advance major = s := by
  simp only [BlockCache.advance, hc]

omit [DecidableEq β] in
theorem load_lt {io' : Io β δ} (hc : 0 ≤ (s.io.request c).dev)
    (hreq : io'.request = Function.update s.io.request c { s.io.request c with dev := -1 })
    (moved : Nat → Bool) :
    load { s with io := io', moved := moved } < s.load := by
  refine Finset.card_lt_card (Finset.ssubset_iff_of_subset ?_ |>.mpr ⟨c, ?_, ?_⟩)
  · intro i hi
    have hi' : 0 ≤ (io'.request i).dev := by simpa using hi
    have hne : i ≠ c := by
      rintro rfl
      rw [hreq, Function.update_self] at hi'
      simp at hi'
    rw [hreq, Function.update_of_ne hne] at hi'
    simpa using hi'
  · simpa using hc
  · simp [hreq]

theorem transfer_io (s : BlockCache β δ) (c : Slot) :
    ∃ bh : β → BufferHead β δ, (s.transfer c).io = { s.io with bh := bh } ∧
    ∀ x, bh x = { s.io.bh x with bData := (bh x).bData } := by
  cases hb : (s.io.request c).bh with
  | none => exact ⟨s.io.bh, by simp only [BlockCache.transfer, hb], fun _ => rfl⟩
  | some b =>
    by_cases hcmd : (s.io.request c).cmd = READ
    · refine ⟨Function.update s.io.bh b
        { s.io.bh b with bData := s.disk (s.io.request c).dev (s.io.request c).sector }, ?_,
        fun x => ?_⟩
      · simp only [BlockCache.transfer, hb, hcmd, if_true]
        rfl
      · by_cases hx : x = b
        · subst hx
          rw [Function.update_self]
        · rw [Function.update_of_ne hx]
    · exact ⟨s.io.bh, by simp only [BlockCache.transfer, hb, hcmd, if_false], fun _ => rfl⟩

theorem transfer_lists (s : BlockCache β δ) (c : Slot) :
    (s.transfer c).buffers = s.buffers ∧ (s.transfer c).chain = s.chain ∧
    (s.transfer c).free = s.free := by
  simp only [BlockCache.transfer]
  split
  · exact ⟨rfl, rfl, rfl⟩
  · split
    · exact ⟨rfl, rfl, rfl⟩
    · exact ⟨rfl, rfl, rfl⟩

theorem waits_transfer (s : BlockCache β δ) (c : Slot) {moved : Nat → Bool} :
    Waits s { s.transfer c with moved := moved } := by
  obtain ⟨bh, hio, hbh⟩ := transfer_io s c
  obtain ⟨hbuffers, hchain, hfree⟩ := transfer_lists s c
  refine ⟨hbuffers, hchain, hfree, ?_, fun x => ?_, fun x => ?_, fun x hx => ?_, fun x hl hu => ?_⟩
  all_goals simp only [hio] at *
  · rw [hbh x]
    exact ⟨rfl, rfl, rfl⟩
  · rw [hbh x]
  · rw [hbh x]
    exact hx
  · rw [hbh x, hl] at hu
    cases hu

theorem load_transfer (s : BlockCache β δ) (c : Slot) (moved : Nat → Bool) :
    load { s.transfer c with moved := moved } = s.load := by
  obtain ⟨bh, hio, -⟩ := transfer_io s c
  simp only [load, hio]

theorem Sound.advance (h : Sound flat mine s) (major : Nat) : Goes flat mine s (s.advance major) ∧
    ∀ c, s.io.currentRequest major = some c → if s.moved major then (s.advance major).load < s.load
      else (s.advance major).moved major = true := by
  obtain ⟨q, h⟩ := h
  cases hc : s.io.currentRequest major with
  | none =>
    rw [advance_none hc]
    exact ⟨Sound.goes_refl ⟨q, h⟩, fun c hcc => by cases hcc⟩
  | some c =>
    have hin := h.queues.head_mem hc
    obtain ⟨b, hbin, hmoves⟩ := h.queues.moves major c hin
    have hb := hmoves.bh
    cases hm : s.moved major with
    | true =>
      obtain ⟨io', hio, hreq, hcur, hfn, hbh⟩ := endRequest_some hc hb
      have heq : s.advance major =
          { s with io := io', moved := Function.update s.moved major false } := by
        simp only [BlockCache.advance, hc, hm, if_true, hio]
      have hdev : 0 ≤ (s.io.request c).dev := by
        rw [hmoves.dev]
        omega
      have hless := load_lt hdev hreq (Function.update s.moved major false)
      rw [heq]
      refine ⟨⟨h.ended hc hb hm hreq hcur hfn hbh,
        ⟨rfl, rfl, rfl, hfn, fun x => ?_, fun x => ?_, fun x hx => ?_, fun x hl hu => ?_⟩,
        hless.le⟩, fun _ _ => hless⟩
      all_goals
        by_cases hxb : x = b
        · subst hxb
          simp_all [SamePlace]
        · simp_all [SamePlace]
    | false =>
      have heq : s.advance major =
          { s.transfer c with moved := Function.update s.moved major true } := by
        simp only [BlockCache.advance, hc, hm, Bool.false_eq_true, if_false]
      rw [heq]
      exact ⟨⟨⟨q, h.transfer hc hb⟩, waits_transfer s c, (load_transfer s c _).le⟩,
        fun _ _ => Function.update_self ..⟩

omit [DecidableEq β] in
theorem Sound.idle (h : Sound flat mine s) (hm : s.moved major = true) :
    s.io.currentRequest major ≠ none := by
  obtain ⟨q, h⟩ := h
  exact h.agrees.idle major hm

theorem Sound.advance_twice (h : Sound flat mine s) (major : Nat) :
    Goes flat mine s ((s.advance major).advance major) ∧
    (s.io.currentRequest major ≠ none → ((s.advance major).advance major).load < s.load) := by
  obtain ⟨hgoes, hhalf⟩ := h.advance major
  obtain ⟨hgoes', hhalf'⟩ := hgoes.sound.advance major
  refine ⟨hgoes.trans hgoes', fun hsome => ?_⟩
  obtain ⟨c, hc⟩ := Option.ne_none_iff_exists'.mp hsome
  have hstep := hhalf c hc
  cases hm : s.moved major with
  | true =>
    rw [hm, if_pos rfl] at hstep
    exact hgoes'.load.trans_lt hstep
  | false =>
    rw [hm, if_neg Bool.false_ne_true] at hstep
    obtain ⟨d, hd⟩ := Option.ne_none_iff_exists'.mp (hgoes.sound.idle hstep)
    have hstep' := hhalf' d hd
    rw [if_pos hstep] at hstep'
    exact hstep'.trans_le hgoes.load

theorem Sound.foldl_advance (h : Sound flat mine s) (l : List Nat) :
    Goes flat mine s (l.foldl BlockCache.advance s) := by
  induction l generalizing s with
  | nil => exact h.goes_refl
  | cons m l ih =>
    have hgoes := (h.advance m).1
    exact hgoes.trans (ih hgoes.sound)

theorem Sound.interrupts (pace : Pace) (h : Sound flat mine s) :
    Goes flat mine s (s.interrupts pace) := by
  obtain ⟨⟨q, hq⟩, hwaits, hload⟩ := h.foldl_advance (pace s.clock)
  exact ⟨⟨q, hq.nodup, hq.filed, hq.queues, hq.agrees.served, hq.agrees.dirty, hq.agrees.uptodate,
    hq.agrees.disk, hq.agrees.arrived,
    hq.agrees.idle⟩, ⟨hwaits.buffers, hwaits.chain, hwaits.free, hwaits.requestFn, hwaits.place,
      hwaits.dirt, hwaits.uptodate,
    hwaits.ended⟩, hload⟩

theorem Sound.drivers (h : Sound flat mine s) (l : List Nat) :
    Goes flat mine s (l.foldl (fun s major => (s.advance major).advance major) s) ∧
      ∀ m ∈ l, s.io.currentRequest m ≠ none →
      (l.foldl (fun s major => (s.advance major).advance major) s).load < s.load := by
  induction l generalizing s with
  | nil => exact ⟨h.goes_refl, fun m hm => by cases hm⟩
  | cons n l ih =>
    obtain ⟨hgoes, hless⟩ := h.advance_twice n
    obtain ⟨hrest, hlessRest⟩ := ih hgoes.sound
    refine ⟨hgoes.trans hrest, fun m hm hsome => ?_⟩
    by_cases hn : s.io.currentRequest n = none
    · have hstill : (s.advance n).advance n = s := by rw [advance_none hn, advance_none hn]
      have hml : m ∈ l := (List.mem_cons.mp hm).resolve_left fun e => hsome (e ▸ hn)
      rw [hstill] at hlessRest
      rw [List.foldl_cons, hstill]
      exact hlessRest m hml hsome
    · exact hrest.load.trans_lt (hless hn)

omit [DecidableEq β] in
theorem Sound.busy (h : Sound flat mine s) (hload : 0 < s.load) :
    ∃ m < NR_BLK_DEV, s.io.currentRequest m ≠ none := by
  obtain ⟨q, h⟩ := h
  obtain ⟨i, hi⟩ := Finset.card_pos.mp hload
  have hused : 0 ≤ (s.io.request i).dev := by simpa using hi
  obtain ⟨m, hm⟩ := h.queues.used i hused
  have hne : q m ≠ [] := List.ne_nil_of_mem hm
  exact ⟨m, h.queues.majors m hne, fun hnone => hne (h.queues.nil_iff.mp hnone)⟩

theorem Sound.sleep (pace : Pace) (h : Sound flat mine s) :
    Goes flat mine s (s.sleep pace) ∧ (0 < s.load → (s.sleep pace).load < s.load) := by
  have hint := h.interrupts pace
  obtain ⟨hgoes, hless⟩ := hint.sound.drivers (List.range NR_BLK_DEV)
  refine ⟨hint.trans hgoes, fun hload => ?_⟩
  by_cases hleft : 0 < (s.interrupts pace).load
  · obtain ⟨m, hm, hsome⟩ := hint.sound.busy hleft
    exact (hless m (List.mem_range.mpr hm) hsome).trans_le hint.load
  · exact (hgoes.load.trans (Nat.le_of_not_lt hleft)).trans_lt hload

omit [DecidableEq β] in
theorem load_le (s : BlockCache β δ) : s.load ≤ NR_REQUEST := by
  have hcard := Finset.card_le_univ (Finset.univ.filter fun i : Slot => 0 ≤ (s.io.request i).dev)
  rwa [Fintype.card_fin] at hcard

omit [DecidableEq β] in
theorem Sound.load_pos (h : Sound flat mine s) (hb : b ∈ s.buffers)
    (hmine : ∀ rw, mine ≠ some (b, rw)) (hlock : (s.io.bh b).bLock = true) : 0 < s.load := by
  obtain ⟨q, h⟩ := h
  obtain ⟨rw, he⟩ | ⟨m, i, hi, hib⟩ := h.queues.locked b hb hlock
  · exact absurd he (hmine rw)
  · obtain ⟨-, hmoves⟩ := h.queues.moves_of_bh hi hib
    refine Finset.card_pos.mpr ⟨i, ?_⟩
    simp [hmoves.dev]

theorem Sound.sleepOnBuffer (pace : Pace) (h : Sound flat mine s) (hb : b ∈ s.buffers)
    (hmine : ∀ rw, mine ≠ some (b, rw)) (fuel : Nat) (hfuel : s.load < fuel) :
    ∃ t, s.sleepOnBuffer pace b fuel = some t ∧ Goes flat mine s t ∧ (t.io.bh b).bLock = false := by
  induction fuel generalizing s with
  | zero => omega
  | succ fuel ih =>
    cases hlock : (s.io.bh b).bLock with
    | false => exact ⟨s, by simp [BlockCache.sleepOnBuffer, hlock], h.goes_refl, hlock⟩
    | true =>
      obtain ⟨hgoes, hless⟩ := h.sleep pace
      have hstep := hless (h.load_pos hb hmine hlock)
      have hb' : b ∈ (s.sleep pace).buffers := hgoes.waits.buffers ▸ hb
      obtain ⟨t, ht, hgoes', hopen⟩ := ih hgoes.sound hb' (by omega)
      exact ⟨t, by rw [BlockCache.sleepOnBuffer, if_pos hlock]; exact ht, hgoes.trans hgoes', hopen⟩

theorem Sound.waitOnBuffer (pace : Pace) (h : Sound flat mine s) (hb : b ∈ s.buffers)
    (hmine : ∀ rw, mine ≠ some (b, rw)) :
    ∃ t, s.waitOnBuffer pace b = some t ∧ Goes flat mine s t ∧ (t.io.bh b).bLock = false := by
  have hint := h.interrupts pace
  have hb' : b ∈ (s.interrupts pace).buffers := hint.waits.buffers ▸ hb
  obtain ⟨t, ht, hgoes, hopen⟩ :=
    hint.sound.sleepOnBuffer pace hb' hmine _ (Nat.lt_succ_of_le (load_le _))
  exact ⟨t, ht, hint.trans hgoes, hopen⟩

omit [DecidableEq β] in
theorem findRequest_none {request : Slot → Request β} {rw : Nat}
    (h : findRequest request rw = none) : 0 ≤ (request 0).dev := by
  have hno := List.find?_eq_none.mp h 0 (List.mem_reverse.mpr (List.mem_finRange _))
  have hpos : (0 : Slot).val < searchEnd rw := by
    simp only [searchEnd, NR_REQUEST]
    split
    · decide
    · decide
  exact le_of_not_gt fun hfree => hno (decide_eq_true ⟨hpos, hfree⟩)

theorem Sound.searchSlot (pace : Pace) (rw : Nat) (h : Sound flat mine s) (fuel : Nat)
    (hfuel : s.load < fuel) :
    ∃ req t, s.searchSlot pace rw fuel = some (req, t) ∧ Goes flat mine s t ∧
    (t.io.request req).dev < 0 := by
  induction fuel generalizing s with
  | zero => omega
  | succ fuel ih =>
    cases hfind : findRequest s.io.request rw with
    | some req =>
      have hfree := List.find?_some hfind
      simp only [decide_eq_true_eq] at hfree
      exact ⟨req, s, by simp [BlockCache.searchSlot, hfind], h.goes_refl, hfree.2⟩
    | none =>
      have hload : 0 < s.load := Finset.card_pos.mpr ⟨0, by simpa using findRequest_none hfind⟩
      obtain ⟨hgoes, hless⟩ := h.sleep pace
      have hstep := hless hload
      obtain ⟨req, t, ht, hgoes', hfree⟩ := ih hgoes.sound (by omega)
      exact ⟨req, t, by simpa [BlockCache.searchSlot, hfind] using ht, hgoes.trans hgoes', hfree⟩

end Hios.Fs.BlockCache
