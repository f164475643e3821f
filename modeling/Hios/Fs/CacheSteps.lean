import Hios.Fs.BufferCalls
import Hios.Fs.CacheMachine

/-! `bread` is embedded step by step where processes sleep in it: over the lists in
`InodeLock`, over the pointers in `BufferCalls`. Run by one process, with the driver at work
while it waits, both come to what `bread` of a `CacheMachine` says. -/
namespace Hios.Fs
open Hios.Run Hios.BlkDrv

section Steps
variable {σ τ α β : Type} {step : τ → α → Option τ} {M : CacheMachine σ β}
  {dev block : Nat} {At : BreadPc β → σ → τ → Prop} {Done : Option β → σ → τ → Prop}
  {b : β} {s s' : σ} {t : τ}

/-- The steps of `getblk` from each place to the next one. The buffer that the process has
waited for is unlocked where `At` says `found` or `chosen`. -/
structure GetblkSteps (step : τ → α → Option τ) (M : CacheMachine σ β) (dev block : Nat)
    (At : BreadPc β → σ → τ → Prop) : Prop where
  found : ∀ {s s' t b}, At .search s t → findBuffer (M.caches s) dev block = some b →
    M.wait b (M.count b 1 s) = some s' → Comes step (At (.found b) s') t
  same : ∀ {s t b}, At (.found b) s t → ((M.caches s).head b).bDev = dev % 65536 →
    ((M.caches s).head b).bBlocknr = block → Comes step (At (.got b) s) t
  moved : ∀ {s t b}, At (.found b) s t → ¬ (((M.caches s).head b).bDev = dev % 65536 ∧
    ((M.caches s).head b).bBlocknr = block) → Comes step (At .search (M.count b 255 s)) t
  chosen : ∀ {s s' t b}, At .search s t → findBuffer (M.caches s) dev block = none →
    scanFree (M.caches s).head (M.caches s).free none = some b → M.wait b s = some s' →
    Comes step (At (.chosen b) s') t
  busy : ∀ {s t b}, At (.chosen b) s t → ((M.caches s).head b).bCount ≠ 0 →
    Comes step (At .search s) t
  dirty : ∀ {s s₁ s₂ t b}, At (.chosen b) s t → ((M.caches s).head b).bCount = 0 →
    ((M.caches s).head b).bDirt = true → M.sync ((M.caches s).head b).bDev s = some s₁ →
    M.wait b s₁ = some s₂ → Comes step (At (.chosen b) s₂) t
  cached : ∀ {s t b}, At (.chosen b) s t → ((M.caches s).head b).bCount = 0 →
    ((M.caches s).head b).bDirt = false → (findBuffer (M.caches s) dev block).isSome →
    Comes step (At .search s) t
  taken : ∀ {s t b}, At (.chosen b) s t → ((M.caches s).head b).bCount = 0 →
    ((M.caches s).head b).bDirt = false → findBuffer (M.caches s) dev block = none →
    Comes step (At (.got b) (M.take dev block b s)) t

/-- The steps of `bread` behind `getblk`. -/
structure BreadSteps (step : τ → α → Option τ) (M : CacheMachine σ β) (dev block : Nat)
    (At : BreadPc β → σ → τ → Prop) (Done : Option β → σ → τ → Prop) : Prop
    extends GetblkSteps step M dev block At where
  hit : ∀ {s t b}, At (.got b) s t → ((M.caches s).head b).bUptodate = true →
    Comes step (Done (some b) s) t
  read : ∀ {s s₁ s₂ t b}, At (.got b) s t → ((M.caches s).head b).bUptodate = false →
    M.llRwBlock READ b s = some s₁ → M.wait b s₁ = some s₂ → Comes step (At (.reading b) s₂) t
  good : ∀ {s t b}, At (.reading b) s t → ((M.caches s).head b).bUptodate = true →
    Comes step (Done (some b) s) t
  bad : ∀ {s s' t b}, At (.reading b) s t → ((M.caches s).head b).bUptodate = false →
    M.brelse b s = some s' → Comes step (Done none s') t

namespace GetblkSteps

theorem getHashTable (h : GetblkSteps step M dev block At) {fuel : Nat} {r : Option β × σ}
    (hrun : M.getHashTable dev block fuel s = some r) (hat : At .search s t) :
    Comes step (fun t' => match r.1 with
      | some b => At (.got b) r.2 t'
      | none => At .search r.2 t' ∧ findBuffer (M.caches r.2) dev block = none) t := by
  induction fuel generalizing s t with
  | zero => cases hrun
  | succ fuel ih =>
    rw [CacheMachine.getHashTable] at hrun
    cases hfound : findBuffer (M.caches s) dev block with
    | none =>
      rw [hfound] at hrun
      obtain rfl := Option.some.inj hrun
      exact .refl ⟨hat, hfound⟩
    | some b =>
      rw [hfound] at hrun
      obtain ⟨s₁, hwait, hrun⟩ := Option.bind_eq_some_iff.mp hrun
      refine (h.found hat hfound hwait).trans fun t₁ hat₁ => ?_
      by_cases hkey : ((M.caches s₁).head b).bDev = dev % 65536 ∧
          ((M.caches s₁).head b).bBlocknr = block
      · dsimp only at hrun
        rw [if_pos hkey] at hrun
        obtain rfl := Option.some.inj hrun
        exact h.same hat₁ hkey.1 hkey.2
      · dsimp only at hrun
        rw [if_neg hkey] at hrun
        exact (h.moved hat₁ hkey).trans fun t₂ hat₂ => ih hrun hat₂

theorem writeOut (h : GetblkSteps step M dev block At) {fuel : Nat} {r : Bool × σ}
    (hrun : M.writeOut b fuel s = some r) (hat : At (.chosen b) s t)
    (hcount : ((M.caches s).head b).bCount = 0) :
    Comes step (fun t' => if r.1 then At .search r.2 t' else At (.chosen b) r.2 t' ∧
      ((M.caches r.2).head b).bCount = 0 ∧ ((M.caches r.2).head b).bDirt = false) t := by
  induction fuel generalizing s t with
  | zero => cases hrun
  | succ fuel ih =>
    rw [CacheMachine.writeOut] at hrun
    by_cases hdirt : ((M.caches s).head b).bDirt = true
    · rw [if_pos hdirt] at hrun
      obtain ⟨s₁, hsync, hrun⟩ := Option.bind_eq_some_iff.mp hrun
      obtain ⟨s₂, hwait, hrun⟩ := Option.bind_eq_some_iff.mp hrun
      refine (h.dirty hat hcount hdirt hsync hwait).trans fun t₂ hat₂ => ?_
      by_cases hbusy : ((M.caches s₂).head b).bCount ≠ 0
      · rw [if_pos hbusy] at hrun
        obtain rfl := Option.some.inj hrun
        exact h.busy hat₂ hbusy
      · rw [if_neg hbusy] at hrun
        exact ih hrun hat₂ (not_not.mp hbusy)
    · rw [if_neg hdirt] at hrun
      obtain rfl := Option.some.inj hrun
      exact .refl ⟨hat, hcount, by simpa using hdirt⟩

theorem getblk (h : GetblkSteps step M dev block At) {fuel : Nat}
    (hrun : M.getblk dev block fuel s = some (b, s')) (hat : At .search s t) :
    Comes step (At (.got b) s') t := by
  induction fuel generalizing s t with
  | zero => cases hrun
  | succ fuel ih =>
    rw [CacheMachine.getblk] at hrun
    obtain ⟨⟨found, s₁⟩, hfound, hrun⟩ := Option.bind_eq_some_iff.mp hrun
    refine (h.getHashTable hfound hat).trans fun t₁ hat₁ => ?_
    cases found with
    | some b₁ =>
      cases hrun
      exact .refl hat₁
    | none =>
      obtain ⟨hat₁, hnone⟩ := hat₁
      obtain ⟨b₁, hscan, hrun⟩ := Option.bind_eq_some_iff.mp hrun
      obtain ⟨s₂, hwait, hrun⟩ := Option.bind_eq_some_iff.mp hrun
      refine (h.chosen hat₁ hnone hscan hwait).trans fun t₂ hat₂ => ?_
      by_cases hbusy : ((M.caches s₂).head b₁).bCount ≠ 0
      · rw [if_pos hbusy] at hrun
        exact (h.busy hat₂ hbusy).trans fun t₃ hat₃ => ih hrun hat₃
      rw [if_neg hbusy] at hrun
      obtain ⟨⟨again, s₃⟩, hagain, hrun⟩ := Option.bind_eq_some_iff.mp hrun
      refine (h.writeOut hagain hat₂ (not_not.mp hbusy)).trans fun t₃ hat₃ => ?_
      cases again with
      | true => exact ih hrun hat₃
      | false =>
        obtain ⟨hat₃, hcount, hdirt⟩ := hat₃
        cases hthere : findBuffer (M.caches s₃) dev block with
        | some b₂ =>
          have hsome : (findBuffer (M.caches s₃) dev block).isSome := by rw [hthere]; rfl
          dsimp only at hrun
          rw [if_neg Bool.false_ne_true, if_pos hsome] at hrun
          exact (h.cached hat₃ hcount hdirt hsome).trans fun t₄ hat₄ => ih hrun hat₄
        | none =>
          have hno : ¬ (findBuffer (M.caches s₃) dev block).isSome := by
            simp [hthere]
          dsimp only at hrun
          rw [if_neg Bool.false_ne_true, if_neg hno] at hrun
          cases hrun
          exact h.taken hat₃ hcount hdirt hthere

end GetblkSteps

theorem BreadSteps.bread (h : BreadSteps step M dev block At Done) {fuel : Nat}
    {r : Option β × σ} (hrun : M.bread dev block fuel s = some r) (hat : At .search s t) :
    Comes step (Done r.1 r.2) t := by
  obtain ⟨⟨b, s₁⟩, hgot, hrun⟩ := Option.bind_eq_some_iff.mp hrun
  refine (h.getblk hgot hat).trans fun t₁ hat₁ => ?_
  cases hup : ((M.caches s₁).head b).bUptodate with
  | true =>
    dsimp only at hrun
    rw [if_pos hup] at hrun
    obtain rfl := Option.some.inj hrun
    exact h.hit hat₁ hup
  | false =>
    dsimp only at hrun
    rw [if_neg (by simp [hup])] at hrun
    obtain ⟨s₂, hread, hrun⟩ := Option.bind_eq_some_iff.mp hrun
    obtain ⟨s₃, hwait, hrun⟩ := Option.bind_eq_some_iff.mp hrun
    refine (h.read hat₁ hup hread hwait).trans fun t₃ hat₃ => ?_
    cases hread : ((M.caches s₃).head b).bUptodate with
    | true =>
      rw [if_pos hread] at hrun
      obtain rfl := Option.some.inj hrun
      exact h.good hat₃ hread
    | false =>
      rw [if_neg (by simp [hread])] at hrun
      obtain ⟨s₄, hrel, hrun⟩ := Option.bind_eq_some_iff.mp hrun
      obtain rfl := Option.some.inj hrun
      exact h.bad hat₃ hread hrel

end Steps

/-- The lists by themselves. What happens while the process waits, in `sync_dev` and to a
request to read comes from outside. -/
def listMachine {β : Type} [DecidableEq β] (wait : β → Caches β → Option (Caches β))
    (sync : Nat → Caches β → Option (Caches β))
    (llRwBlock : Nat → β → Caches β → Option (Caches β)) : CacheMachine (Caches β) β where
  caches := id
  wait := wait
  count b n k := k.setHead b { k.head b with bCount := ((k.head b).bCount + n) % 256 }
  release b k := releaseBuffer k b
  take dev block b k := takeBuffer k dev block b
  sync := sync
  llRwBlock := llRwBlock

section Lists
variable {β : Type} [DecidableEq β] {wait : β → Caches β → Option (Caches β)}
  {sync : Nat → Caches β → Option (Caches β)}
  {llRwBlock : Nat → β → Caches β → Option (Caches β)} {dev block : Nat}
  {rest : List (Frame β)} {write : Bool} {i : InodeIx} {k k' : Caches β}

/-- What comes from outside is what a run of the stack finds there, with the process in
`bread` above `rest`. -/
structure Outside (wait : β → Caches β → Option (Caches β))
    (sync : Nat → Caches β → Option (Caches β))
    (llRwBlock : Nat → β → Caches β → Option (Caches β)) (dev block : Nat)
    (rest : List (Frame β)) : Prop where
  awake : ∀ {b k k'}, wait b k = some k' → (k'.head b).bLock = false
  free : ∀ {b k}, (k.head b).bLock = false → wait b k = some k
  wait : ∀ {b k k'} pc, wait b k = some k' →
    Comes lockStep (· = ⟨k', .bread dev block pc :: rest⟩) ⟨k, .bread dev block pc :: rest⟩
  sync : ∀ {d b k k'}, sync d k = some k' →
    Comes lockStep (· = ⟨k', .bread dev block (.chosen b) :: rest⟩)
      ⟨k, .syncDev d (.first 0) :: .bread dev block (.chosen b) :: rest⟩
  read : ∀ {b k k'}, (k.head b).bUptodate = false → llRwBlock READ b k = some k' →
    Comes lockStep (· = ⟨k', .bread dev block (.reading b) :: rest⟩)
      ⟨k, .bread dev block (.got b) :: rest⟩

def BreadAt (dev block : Nat) (rest : List (Frame β)) (pc : BreadPc β) (k : Caches β)
    (s : LockState β) : Prop :=
  s = ⟨k, .bread dev block pc :: rest⟩ ∧
    match pc with
    | .found b | .chosen b | .reading b => (k.head b).bLock = false
    | .search | .got _ => True

theorem getblkSteps_lists (h : Outside wait sync llRwBlock dev block rest) :
    GetblkSteps lockStep (listMachine wait sync llRwBlock) dev block
      (BreadAt dev block rest) where
  found := by
    rintro k k' s b ⟨rfl, -⟩ hfound hwait
    have hgo : lockStep ⟨k, .bread dev block .search :: rest⟩ .go =
        some ⟨k.setHead b { k.head b with bCount := ((k.head b).bCount + 1) % 256 },
          .bread dev block (.found b) :: rest⟩ := by
      have hf : findBuffer k dev block = some b := hfound
      simp only [lockStep, stackStep, breadStep, hf, Option.map_some]
    refine .next .go _ hgo ((h.wait (.found b) hwait).trans ?_)
    rintro _ rfl
    exact .refl ⟨rfl, h.awake hwait⟩
  same := by
    rintro k s b ⟨rfl, hopen⟩ hdev hblock
    refine .next .go ⟨k, .bread dev block (.got b) :: rest⟩ ?_ (.refl ⟨rfl, trivial⟩)
    have hkey : (k.head b).bDev = dev % 65536 ∧ (k.head b).bBlocknr = block := ⟨hdev, hblock⟩
    simp [lockStep, stackStep, breadStep, hopen, hkey]
  moved := by
    rintro k s b ⟨rfl, hopen⟩ hkey
    have hkey' : ¬ ((k.head b).bDev = dev % 65536 ∧ (k.head b).bBlocknr = block) := hkey
    refine .next .go ⟨k.setHead b
      { k.head b with bCount := ((k.head b).bCount + 255) % 256 },
        .bread dev block .search :: rest⟩ ?_ (.refl ⟨rfl, trivial⟩)
    simp only [lockStep, stackStep, breadStep, hopen, Bool.false_eq_true, if_false,
      if_neg hkey', Option.map_some]
  chosen := by
    rintro k k' s b ⟨rfl, -⟩ hnone hscan hwait
    have hn : findBuffer k dev block = none := hnone
    have hs : scanFree k.head k.free none = some b := hscan
    have hgo : lockStep ⟨k, .bread dev block .search :: rest⟩ .go =
        some ⟨k, .bread dev block (.chosen b) :: rest⟩ := by
      simp only [lockStep, stackStep, breadStep, hn, hs, Option.map_some]
    refine .next .go _ hgo ((h.wait (.chosen b) hwait).trans ?_)
    rintro _ rfl
    exact .refl ⟨rfl, h.awake hwait⟩
  busy := by
    rintro k s b ⟨rfl, hopen⟩ hcount
    have hbusy : (k.head b).bCount ≠ 0 := hcount
    refine .next .go ⟨k, .bread dev block .search :: rest⟩ ?_ (.refl ⟨rfl, trivial⟩)
    simp only [lockStep, stackStep, breadStep, hopen, Bool.false_eq_true, if_false,
      if_pos hbusy, Option.map_some]
  dirty := by
    rintro k k₁ k₂ s b ⟨rfl, hopen⟩ hcount hdirt hsync hwait
    have hc : (k.head b).bCount = 0 := hcount
    have hd : (k.head b).bDirt = true := hdirt
    have hgo : lockStep ⟨k, .bread dev block (.chosen b) :: rest⟩ .go =
        some ⟨k, .syncDev (k.head b).bDev (.first 0) :: .bread dev block (.chosen b) :: rest⟩ := by
      simp [lockStep, stackStep, breadStep, hopen, hc, hd]
    refine .next .go _ hgo ((h.sync hsync).trans ?_)
    rintro _ rfl
    refine (h.wait (.chosen b) hwait).trans ?_
    rintro _ rfl
    exact .refl ⟨rfl, h.awake hwait⟩
  cached := by
    rintro k s b ⟨rfl, hopen⟩ hcount hdirt hsome
    have hc : (k.head b).bCount = 0 := hcount
    have hd : (k.head b).bDirt = false := hdirt
    have hs : (findBuffer k dev block).isSome = true := hsome
    refine .next .go ⟨k, .bread dev block .search :: rest⟩ ?_ (.refl ⟨rfl, trivial⟩)
    simp [lockStep, stackStep, breadStep, hopen, hc, hd, hs]
  taken := by
    rintro k s b ⟨rfl, hopen⟩ hcount hdirt hnone
    have hc : (k.head b).bCount = 0 := hcount
    have hd : (k.head b).bDirt = false := hdirt
    have hn : findBuffer k dev block = none := hnone
    refine .next .go ⟨takeBuffer k dev block b, .bread dev block (.got b) :: rest⟩
      ?_ (.refl ⟨rfl, trivial⟩)
    simp [lockStep, stackStep, breadStep, hopen, hc, hd, hn]

/-- `bread` called by `read_inode` or `write_inode`. -/
theorem breadSteps_lists
    (h : Outside wait sync llRwBlock dev block (.inode write i .calling :: rest)) :
    BreadSteps lockStep (listMachine wait sync llRwBlock) dev block
      (BreadAt dev block (.inode write i .calling :: rest))
      (fun r k s => s = ⟨k, .inode write i (.read r) :: rest⟩) where
  toGetblkSteps := getblkSteps_lists h
  hit := by
    rintro k s b ⟨rfl, -⟩ hup
    have hu : (k.head b).bUptodate = true := hup
    refine .next .go _ ?_ (.refl rfl)
    simp [lockStep, stackStep, breadStep, returnBread, hu]
  read := by
    rintro k k₁ k₂ s b ⟨rfl, -⟩ hup hread hwait
    refine (h.read hup hread).trans ?_
    rintro _ rfl
    refine (h.wait (.reading b) hwait).trans ?_
    rintro _ rfl
    exact .refl ⟨rfl, h.awake hwait⟩
  good := by
    rintro k s b ⟨rfl, hopen⟩ hup
    have hu : (k.head b).bUptodate = true := hup
    refine .next .go _ ?_ (.refl rfl)
    simp [lockStep, stackStep, breadStep, returnBread, hopen, hu]
  bad := by
    rintro k k' s b ⟨rfl, hopen⟩ hup hrel
    have hu : (k.head b).bUptodate = false := hup
    obtain ⟨k₁, hwait, hr⟩ := Option.bind_eq_some_iff.mp hrel
    obtain rfl : k₁ = k := Option.some.inj ((hwait : wait b k = some k₁).symm.trans (h.free hopen))
    have hr : releaseBuffer k₁ b = some k' := hr
    refine .next .go _ ?_ (.refl rfl)
    simp [lockStep, stackStep, breadStep, returnBread, hopen, hu, hr]

/-- Run by itself, the stack of calls comes to what `bread` of the machine says. -/
theorem bread_lockRun
    (h : Outside wait sync llRwBlock dev block (.inode write i .calling :: rest)) {fuel : Nat}
    {r : Option β}
    (hrun : (listMachine wait sync llRwBlock).bread dev block fuel k = some (r, k')) :
    Comes lockStep (· = ⟨k', .inode write i (.read r) :: rest⟩)
      ⟨k, .bread dev block .search :: .inode write i .calling :: rest⟩ :=
  (breadSteps_lists h).bread hrun ⟨rfl, trivial⟩

end Lists

section Memory
variable {π : Type} [DecidableEq π] {caller : Lookup} {dev block : Nat} {o : π → BufferProcess}
  {p : π} {rest : List BufferFrame} {k k' : Caches Nat} {c c' : BufferMem}
  {r : BufferMem × CallResult} {b : Nat} {f : BufferFrame}
  {wait : Nat → Caches Nat → Option (Caches Nat)} {sync : Nat → Caches Nat → Option (Caches Nat)}
  {llRwBlock : Nat → Nat → Caches Nat → Option (Caches Nat)}

def Caches.setFlags {β : Type} [DecidableEq β] (k : Caches β) (b : β) (uptodate dirt lock : Bool) :
    Caches β :=
  k.setHead b { k.head b with bUptodate := uptodate, bDirt := dirt, bLock := lock }

/-- Nothing but flags of heads has been set. -/
inductive FlagsSet {β : Type} [DecidableEq β] (k : Caches β) : Caches β → Prop where
  | none : FlagsSet k k
  | set {k' : Caches β} (b : β) (uptodate dirt lock : Bool) :
    FlagsSet k k' → FlagsSet k (k'.setFlags b uptodate dirt lock)

structure InLists (k : Caches Nat) (c : BufferMem) : Prop where
  nonempty : k.buffers ≠ []
  represents : c.view.Represents k
  filed : Filed k
  /-- `unsigned char`. -/
  char : ∀ x, (k.head x).bCount < 256

/-- Process `p` once a stretch of its call has come to `r`. -/
def inCall (o : π → BufferProcess) (p : π) (rest : List BufferFrame)
    (r : BufferMem × CallResult) : BufferState π :=
  BufferState.resume ⟨r.1, o⟩ p rest r

theorem inCall_go (f : BufferFrame) :
    bufferStep (inCall o p rest (c, .sleeps f)) (.go p) =
      (c.frameStep f).map (inCall o p rest) := by
  have hstack : (inCall o p rest (c, .sleeps f)).process p = ⟨f :: rest, (o p).value⟩ :=
    Function.update_self ..
  have hmem : (inCall o p rest (c, .sleeps f)).mem = c := rfl
  simp only [bufferStep, hstack, hmem]
  refine Option.map_congr fun r _ => ?_
  simp only [inCall, BufferState.resume, BufferProcess.resume, Function.update_idem,
    Function.update_self]

theorem comes_go {P : BufferState π → Prop} (hgo : c.frameStep f = some r)
    (h : Comes bufferStep P (inCall o p rest r)) :
    Comes bufferStep P (inCall o p rest (c, .sleeps f)) :=
  .next (.go p) _ (by rw [inCall_go, hgo]; rfl) h

theorem inCall_flags (uptodate dirt lock : Bool) :
    bufferStep (inCall o p rest r) (.flags b uptodate dirt lock) =
      some (inCall o p rest (r.1.store (some b) fun h =>
        { h with bUptodate := uptodate, bDirt := dirt, bLock := lock }, r.2)) := rfl

theorem InLists.head (h : InLists k c) (x : Nat) : (c.head x).core = k.head x :=
  congrFun h.represents.core x

theorem InLists.fields (h : InLists k c) (x : Nat) :
    k.head x = ⟨(c.head x).bDev, (c.head x).bBlocknr, (c.head x).bUptodate, (c.head x).bDirt,
      (c.head x).bCount, (c.head x).bLock⟩ :=
  (h.head x).symm

theorem InLists.store (h : InLists k c) {f : MemHead → MemHead} {m : CacheHead}
    (hm : (f (c.head b)).core = m) (hchar : m.bCount < 256)
    (hkeys : ∀ m, (f m).bDev = m.bDev ∧ (f m).bBlocknr = m.bBlocknr)
    (hlinks : ∀ m, (f m).bNext = m.bNext ∧ (f m).bPrev = m.bPrev ∧ (f m).bNextFree = m.bNextFree ∧
      (f m).bPrevFree = m.bPrevFree) : InLists (k.setHead b m) (c.store (some b) f) := by
  obtain ⟨hrep, hfiled⟩ := store_represents h.represents h.filed hkeys hlinks
  refine ⟨h.nonempty, hm ▸ hrep, hm ▸ hfiled, fun x => ?_⟩
  by_cases hx : x = b
  · subst hx
    simpa only [Caches.setHead, Function.update_self] using hchar
  · simpa only [Caches.setHead, Function.update_of_ne hx] using h.char x

theorem InLists.flags (h : InLists k c) (hset : FlagsSet k k') (r : CallResult) :
    Comes bufferStep (fun s => ∃ c', InLists k' c' ∧ s = inCall o p rest (c', r))
      (inCall o p rest (c, r)) := by
  induction hset with
  | none => exact .refl ⟨c, h, rfl⟩
  | set b uptodate dirt lock _ ih =>
    refine ih.trans ?_
    rintro _ ⟨c', h', rfl⟩
    refine .next (.flags b uptodate dirt lock) _ (inCall_flags uptodate dirt lock)
      (.refl ⟨_, ?_, rfl⟩)
    refine h'.store ?_ (h'.char b) (fun _ => ⟨rfl, rfl⟩) (fun _ => ⟨rfl, rfl, rfl, rfl⟩)
    rw [← h'.head b]
    rfl

theorem InLists.finds (h : InLists k c) :
    c.findBuffer dev block = some (findBuffer k dev block) :=
  findBuffer_eq h.represents h.filed dev block

theorem InLists.searches (h : InLists k c) (hcaller : caller ≠ .getHashTable) :
    c.search caller dev block = some (match findBuffer k dev block with
      | some b => (c.countUp b, .sleeps (.lookup caller dev block (.found b)))
      | none => (c, .sleeps (.lookup caller dev block
          ((scanFree k.head k.free none).elim .noBuffer .chosen)))) := by
  rw [BufferMem.search, h.finds, Option.bind_some]
  cases findBuffer k dev block with
  | some b => rfl
  | none =>
    dsimp only
    rw [if_neg hcaller, scan_eq h.represents h.filed h.nonempty]
    rfl

/-- Where a process is in `getblk` or `bread` of the memory, for `bread` over the lists. A
failed search has gone on to wait for a buffer or to the one it has chosen. -/
def MemoryAt (o : π → BufferProcess) (p : π) (rest : List BufferFrame) (caller : Lookup)
    (dev block : Nat) : BreadPc Nat → Caches Nat → BufferState π → Prop
  | .search, k, s => ∃ c r, InLists k c ∧ c.search caller dev block = some r ∧
      s = inCall o p rest r
  | .found b, k, s => ∃ c, InLists k c ∧ (k.head b).bLock = false ∧
      s = inCall o p rest (c, .sleeps (.lookup caller dev block (.found b)))
  | .chosen b, k, s => ∃ c, InLists k c ∧ (k.head b).bLock = false ∧ b ∈ k.buffers ∧
      s = inCall o p rest (c, .sleeps (.lookup caller dev block (.chosen b)))
  | .got b, k, s => ∃ c, InLists k c ∧ s = inCall o p rest (c.obtained caller dev block b)
  | .reading b, k, s => ∃ c, InLists k c ∧ (k.head b).bLock = false ∧
      s = inCall o p rest (c, .sleeps (.lookup caller dev block (.reading b)))

/-- What happens while the process waits, in `sync_dev` and to a request to read sets flags. -/
structure SetsFlags (wait : Nat → Caches Nat → Option (Caches Nat))
    (sync : Nat → Caches Nat → Option (Caches Nat))
    (llRwBlock : Nat → Nat → Caches Nat → Option (Caches Nat)) : Prop where
  awake : ∀ {b k k'}, wait b k = some k' → (k'.head b).bLock = false
  free : ∀ {b k}, (k.head b).bLock = false → wait b k = some k
  wait : ∀ {b k k'}, wait b k = some k' → FlagsSet k k'
  sync : ∀ {d k k'}, sync d k = some k' → FlagsSet k k'
  read : ∀ {b k k'}, llRwBlock READ b k = some k' → FlagsSet k k'

theorem FlagsSet.buffers (h : FlagsSet k k') : k'.buffers = k.buffers := by
  induction h with
  | none => rfl
  | set b uptodate dirt lock _ ih => exact ih

theorem FlagsSet.trans {k₁ k₂ k₃ : Caches Nat} (h : FlagsSet k₁ k₂) (h' : FlagsSet k₂ k₃) :
    FlagsSet k₁ k₃ := by
  induction h' with
  | none => exact h
  | set b uptodate dirt lock _ ih => exact ih.set b uptodate dirt lock

theorem InLists.count (h : InLists k c) (b n : Nat) {f : MemHead → MemHead}
    (hf : ∀ m, f m = { m with bCount := (m.bCount + n) % 256 }) :
    InLists (k.setHead b { k.head b with bCount := ((k.head b).bCount + n) % 256 })
      (c.store (some b) f) := by
  obtain rfl : f = fun m => { m with bCount := (m.bCount + n) % 256 } := funext hf
  refine h.store ?_ (Nat.mod_lt _ (by decide)) (fun _ => ⟨rfl, rfl⟩) (fun _ => ⟨rfl, rfl, rfl, rfl⟩)
  rw [← h.head b]
  rfl

/-- `bread` and `getblk` search again from their start. -/
theorem InLists.again (h : InLists k c) (hcaller : caller ≠ .getHashTable)
    (hgo : c.frameStep f = c.search caller dev block) :
    Comes bufferStep (MemoryAt o p rest caller dev block .search k)
      (inCall o p rest (c, .sleeps f)) := by
  obtain ⟨r, hr⟩ : ∃ r, c.search caller dev block = some r := ⟨_, h.searches hcaller⟩
  exact comes_go (hgo.trans hr) (.refl ⟨c, r, h, hr, rfl⟩)

theorem InLists.take (h : InLists k c) (hdev : dev < 65536) (hb : b ∈ k.buffers)
    (hnone : findBuffer k dev block = none) :
    ∃ c', c.take dev block b = some c' ∧ InLists (takeBuffer k dev block b) c' := by
  obtain ⟨c', htake, hrep⟩ := take_represents dev block h.represents h.filed hb
  refine ⟨c', htake, h.nonempty, hrep, h.filed.take hb hnone hdev, fun x => ?_⟩
  by_cases hx : x = b
  · subst hx
    simp [takeBuffer]
  · rw [takeBuffer_head_of_ne hx]
    exact h.char x

theorem getblkSteps_memory (h : SetsFlags wait sync llRwBlock) (hcaller : caller ≠ .getHashTable)
    (hdev : dev < 65536) :
    GetblkSteps bufferStep (listMachine wait sync llRwBlock) dev block
      (MemoryAt o p rest caller dev block) where
  found := by
    rintro k k' s b ⟨c, r, hin, hr, rfl⟩ hfound hwait
    have hf : findBuffer k dev block = some b := hfound
    rw [hin.searches hcaller, hf] at hr
    obtain rfl := Option.some.inj hr
    have hup : InLists (k.setHead b { k.head b with bCount := ((k.head b).bCount + 1) % 256 })
        (c.countUp b) := hin.count b 1 fun _ => rfl
    refine (hup.flags (h.wait hwait) _).trans ?_
    rintro _ ⟨c', hc', rfl⟩
    exact .refl ⟨c', hc', h.awake hwait, rfl⟩
  same := by
    rintro k s b ⟨c, hin, hopen, rfl⟩ hkey hblock
    simp only [listMachine, id_eq, hin.fields b] at hkey hblock
    simp only [hin.fields b] at hopen
    refine comes_go ?_ (.refl ⟨c, hin, rfl⟩)
    simp only [BufferMem.frameStep, BufferMem.lookupStep]
    rw [if_neg (by simpa using hopen), if_pos ⟨hkey, hblock⟩]
  moved := by
    rintro k s b ⟨c, hin, hopen, rfl⟩ hkey
    simp only [listMachine, id_eq, hin.fields b] at hkey
    have hdown : InLists (k.setHead b { k.head b with bCount := ((k.head b).bCount + 255) % 256 })
        (c.countDown b) := hin.count b 255 fun _ => rfl
    simp only [hin.fields b] at hopen
    obtain ⟨r, hr⟩ : ∃ r, (c.countDown b).search caller dev block = some r :=
      ⟨_, hdown.searches hcaller⟩
    refine comes_go ?_ (.refl ⟨_, r, hdown, hr, rfl⟩)
    simp only [BufferMem.frameStep, BufferMem.lookupStep]
    rw [if_neg (by simpa using hopen), if_neg hkey, hr]
  chosen := by
    rintro k k' s b ⟨c, r, hin, hr, rfl⟩ hnone hscan hwait
    have hn : findBuffer k dev block = none := hnone
    have hs : scanFree k.head k.free none = some b := hscan
    rw [hin.searches hcaller, hn, hs] at hr
    obtain rfl := Option.some.inj hr
    have hb : b ∈ k.buffers :=
      hin.filed.free.mem_iff.mp ((scanFree_mem hs).resolve_right fun h => by cases h)
    refine (hin.flags (h.wait hwait) _).trans ?_
    rintro _ ⟨c', hc', rfl⟩
    exact .refl ⟨c', hc', h.awake hwait, (h.wait hwait).buffers ▸ hb, rfl⟩
  busy := by
    rintro k s b ⟨c, hin, hopen, -, rfl⟩ hcount
    simp only [listMachine, id_eq, hin.fields b] at hcount
    simp only [hin.fields b] at hopen
    refine hin.again hcaller ?_
    simp only [BufferMem.frameStep, BufferMem.lookupStep]
    rw [if_neg (by simpa using hopen), if_pos hcount]
  dirty := by
    rintro k k₁ k₂ s b ⟨c, hin, hopen, hb, rfl⟩ hcount hdirt hsync hwait
    have hset := h.sync hsync
    simp only [listMachine, id_eq, hin.fields b] at hcount hdirt
    simp only [hin.fields b] at hopen
    refine comes_go (r := (c, .sleeps (.lookup caller dev block (.syncDev b)))) ?_ ?_
    · simp only [BufferMem.frameStep, BufferMem.lookupStep]
      rw [if_neg (by simpa using hopen), if_neg (by simpa using hcount), if_pos hdirt]
    refine (hin.flags hset _).trans ?_
    rintro _ ⟨c₁, hc₁, rfl⟩
    refine comes_go (r := (c₁, .sleeps (.lookup caller dev block (.chosen b)))) rfl ?_
    refine (hc₁.flags (h.wait hwait) _).trans ?_
    rintro _ ⟨c₂, hc₂, rfl⟩
    exact .refl ⟨c₂, hc₂, h.awake hwait, (hset.trans (h.wait hwait)).buffers ▸ hb, rfl⟩
  cached := by
    rintro k s b ⟨c, hin, hopen, -, rfl⟩ hcount hdirt hsome
    obtain ⟨b', hb'⟩ := Option.isSome_iff_exists.mp hsome
    have hfound : findBuffer k dev block = some b' := hb'
    simp only [listMachine, id_eq, hin.fields b] at hcount hdirt
    simp only [hin.fields b] at hopen
    refine hin.again hcaller ?_
    simp only [BufferMem.frameStep, BufferMem.lookupStep]
    rw [if_neg (by simpa using hopen), if_neg (by simpa using hcount),
      if_neg (by simpa using hdirt), hin.finds, hfound]
    rfl
  taken := by
    rintro k s b ⟨c, hin, hopen, hb, rfl⟩ hcount hdirt hnone
    have hn : findBuffer k dev block = none := hnone
    obtain ⟨c', htake, hin'⟩ := hin.take hdev hb hn
    simp only [listMachine, id_eq, hin.fields b] at hcount hdirt
    simp only [hin.fields b] at hopen
    refine comes_go ?_ (.refl ⟨c', hin', rfl⟩)
    simp only [BufferMem.frameStep, BufferMem.lookupStep]
    rw [if_neg (by simpa using hopen), if_neg (by simpa using hcount),
      if_neg (by simpa using hdirt), hin.finds, hn, Option.bind_some, htake]
    rfl

theorem breadSteps_memory (h : SetsFlags wait sync llRwBlock) (hdev : dev < 65536) :
    BreadSteps bufferStep (listMachine wait sync llRwBlock) dev block
      (MemoryAt o p rest .bread dev block)
      (fun value k s => ∃ c, InLists k c ∧ s = inCall o p rest (c, .returns value)) where
  toGetblkSteps := getblkSteps_memory h nofun hdev
  hit := by
    rintro k s b ⟨c, hin, rfl⟩ hup
    simp only [listMachine, id_eq, hin.fields b] at hup
    refine .refl ⟨c, hin, ?_⟩
    rw [BufferMem.obtained, if_neg (by simp [hup])]
  read := by
    rintro k k₁ k₂ s b ⟨c, hin, rfl⟩ hup hread hwait
    simp only [listMachine, id_eq, hin.fields b] at hup
    rw [BufferMem.obtained, if_pos ⟨rfl, hup⟩]
    refine (hin.flags ((h.read hread).trans (h.wait hwait)) _).trans ?_
    rintro _ ⟨c₂, hc₂, rfl⟩
    exact .refl ⟨c₂, hc₂, h.awake hwait, rfl⟩
  good := by
    rintro k s b ⟨c, hin, hopen, rfl⟩ hup
    simp only [listMachine, id_eq, hin.fields b] at hup
    simp only [hin.fields b] at hopen
    refine comes_go ?_ (.refl ⟨c, hin, rfl⟩)
    simp only [BufferMem.frameStep, BufferMem.lookupStep]
    rw [if_neg (by simpa using hopen), if_pos hup]
  bad := by
    rintro k k' s b ⟨c, hin, hopen, rfl⟩ hup hrel
    obtain ⟨k₁, hwait, hr⟩ := Option.bind_eq_some_iff.mp hrel
    obtain rfl : k₁ = k := Option.some.inj ((hwait : wait b k = some k₁).symm.trans (h.free hopen))
    have hr : releaseBuffer k₁ b = some k' := hr
    have hdown : InLists (k₁.setHead b
        { k₁.head b with bCount := ((k₁.head b).bCount + 255) % 256 }) (c.countDown b) :=
      hin.count b 255 fun _ => rfl
    rw [releaseBuffer] at hr
    split at hr
    · cases hr
    · rename_i hcount
      have hchar := hin.char b
      obtain rfl := Option.some.inj hr
      rw [show (k₁.head b).bCount - 1 = ((k₁.head b).bCount + 255) % 256 by omega]
      simp only [listMachine, id_eq, hin.fields b] at hup
      simp only [hin.fields b] at hopen hcount
      refine comes_go ?_ (.refl ⟨_, hdown, rfl⟩)
      simp only [BufferMem.frameStep, BufferMem.lookupStep]
      rw [if_neg (by simpa using hopen), if_neg (by simp [hup]), BufferMem.release, if_neg hcount]

/-- Called and run by itself, `getblk` of the memory comes to what the machine says. -/
theorem getblk_bufferRun (h : SetsFlags wait sync llRwBlock) (hdev : dev < 65536)
    (hin : InLists k c) {fuel : Nat}
    (hrun : (listMachine wait sync llRwBlock).getblk dev block fuel k = some (b, k')) :
    Comes bufferStep
      (fun s => ∃ c', InLists k' c' ∧ s = inCall o p (o p).stack (c', .returns (some b)))
      ⟨c, o⟩ := by
  have hcaller : Lookup.getblk ≠ .getHashTable := nofun
  obtain ⟨r, hr⟩ : ∃ r, c.search .getblk dev block = some r := ⟨_, hin.searches hcaller⟩
  refine .next (.call p (.getblk dev block)) (inCall o p (o p).stack r)
    (congrArg (Option.map _) hr) ?_
  refine ((getblkSteps_memory h hcaller hdev).getblk hrun ⟨c, r, hin, hr, rfl⟩).trans ?_
  rintro _ ⟨c', hin', rfl⟩
  exact .refl ⟨c', hin', rfl⟩

theorem bread_bufferRun (h : SetsFlags wait sync llRwBlock) (hdev : dev < 65536)
    (hin : InLists k c) {fuel : Nat} {value : Option Nat}
    (hrun : (listMachine wait sync llRwBlock).bread dev block fuel k = some (value, k')) :
    Comes bufferStep
      (fun s => ∃ c', InLists k' c' ∧ s = inCall o p (o p).stack (c', .returns value))
      ⟨c, o⟩ := by
  obtain ⟨r, hr⟩ : ∃ r, c.search .bread dev block = some r := ⟨_, hin.searches nofun⟩
  exact .next (.call p (.bread dev block)) (inCall o p (o p).stack r)
    (congrArg (Option.map _) hr)
    ((breadSteps_memory h hdev).bread hrun ⟨c, r, hin, hr, rfl⟩)

end Memory

section Alone

/-- A process by itself waits for nothing, and nobody does anything for it. -/
def waitAlone {β : Type} (b : β) (k : Caches β) : Option (Caches β) :=
  if (k.head b).bLock then none else some k

theorem waitAlone_eq {β : Type} {b : β} {k k' : Caches β} (h : waitAlone b k = some k') :
    (k.head b).bLock = false ∧ k' = k := by
  rw [waitAlone] at h
  split at h
  · cases h
  · rename_i hopen
    exact ⟨by simpa using hopen, (Option.some.inj h).symm⟩

theorem waitAlone_free {β : Type} {b : β} {k : Caches β} (h : (k.head b).bLock = false) :
    waitAlone b k = some k := if_neg (by simp [h])

theorem outside_alone {β : Type} [DecidableEq β] (dev block : Nat) (rest : List (Frame β)) :
    Outside waitAlone (fun _ _ => none) (fun _ _ _ => none) dev block rest where
  awake h := (waitAlone_eq h).2 ▸ (waitAlone_eq h).1
  free := waitAlone_free
  wait pc h := .refl (by rw [(waitAlone_eq h).2])
  sync h := nomatch h
  read _ h := nomatch h

theorem setsFlags_alone : SetsFlags waitAlone (fun _ _ => none) (fun _ _ _ => none) where
  awake h := (waitAlone_eq h).2 ▸ (waitAlone_eq h).1
  free := waitAlone_free
  wait h := (waitAlone_eq h).2 ▸ .none
  sync h := nomatch h
  read h := nomatch h

/-- A hit, or a clean buffer whose block is up to date: over the lists and over the pointers
`bread` comes to the same. -/
theorem bread_alone {π : Type} [DecidableEq π] {o : π → BufferProcess} {p : π} {dev block : Nat}
    {write : Bool} {i : InodeIx} {rest : List (Frame Nat)} {k k' : Caches Nat} {c : BufferMem}
    (hdev : dev < 65536) (hin : InLists k c) {fuel : Nat} {value : Option Nat}
    (hrun : (listMachine waitAlone (fun _ _ => none) fun _ _ _ => none).bread dev block fuel k =
      some (value, k')) :
    Comes lockStep (· = ⟨k', .inode write i (.read value) :: rest⟩)
        ⟨k, .bread dev block .search :: .inode write i .calling :: rest⟩ ∧
      Comes bufferStep
        (fun s => ∃ c', InLists k' c' ∧ s = inCall o p (o p).stack (c', .returns value))
        ⟨c, o⟩ :=
  ⟨bread_lockRun (outside_alone dev block _) hrun, bread_bufferRun setsFlags_alone hdev hin hrun⟩

end Alone

end Hios.Fs
