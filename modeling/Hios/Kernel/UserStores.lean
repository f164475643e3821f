import Hios.Kernel.CopyOnWrite
import Mathlib.Data.List.TakeWhile

/-! The kernel's stores into the memory of a process. With CR0.WP clear they
ignore the R/W bit, so only `verify_area` keeps them out of shared pages. -/
namespace Hios.Kernel
open Hios.Mm Hios.RefCount Hios.Run
variable {c : Config} {m m' : Machine} {t : TaskNr} {τ : Task}

/-- The calls that store into the caller's memory, with what they have for it. -/
inductive Call where
  | fileRead (buf : Nat) (bytes : List Byte)
  | ttyRead (buf : Nat) (bytes : List Byte)
  | waitpid (statAddr : Nat) (code : Word)
  | sigaction (oldAction : Nat) (tmp : Fin 16 → Byte)
  | signal (esp : Nat) (restorer signr : Word) (blocked : Option Word)
    (eax ecx edx eflags oldEip : Word)

def longBytes (w : Word) : List Byte := (List.range 4).map (getByte w)

/-- What `do_signal` pushes; the mask only without `SA_NOMASK`. -/
def frameLongs (restorer signr : Word) (blocked : Option Word) (eax ecx edx eflags oldEip : Word) :
    List Word :=
  [restorer, signr] ++ blocked.toList ++ [eax, ecx, edx, eflags, oldEip]

def pushed (esp longs : Nat) : Nat := (esp + 2 ^ 32 - longs * 4) % 2 ^ 32

/-- The arguments of `verify_area`, where the call runs it. -/
def Call.verified : Call → Option (Nat × Nat)
  | .fileRead _ _ => none
  | .ttyRead _ _ => none
  | .waitpid statAddr _ => some (statAddr, 4)
  | .sigaction oldAction _ => some (oldAction, 16)
  | .signal esp restorer signr blocked eax ecx edx eflags oldEip =>
    let longs := (frameLongs restorer signr blocked eax ecx edx eflags oldEip).length
    some (pushed esp longs, longs * 4)

def putBytes (buf : Nat) (bytes : List Byte) : List (Nat × List Byte) :=
  bytes.mapIdx fun i v => (buf + i, [v])

def putLongs (esp : Nat) (longs : List Word) : List (Nat × List Byte) :=
  longs.mapIdx fun i w => (esp + 4 * i, longBytes w)

/-- The `put_fs_byte` and `put_fs_long` of a call, in order. -/
def Call.puts : Call → List (Nat × List Byte)
  | .fileRead buf bytes => putBytes buf bytes
  | .ttyRead buf bytes => putBytes buf bytes
  | .waitpid statAddr code => putLongs statAddr [code]
  | .sigaction oldAction tmp => putBytes oldAction (List.ofFn tmp)
  | .signal esp restorer signr blocked eax ecx edx eflags oldEip =>
    let longs := frameLongs restorer signr blocked eax ecx edx eflags oldEip
    putLongs (pushed esp longs.length) longs

/-- The bytes that are stored: a put beyond the segment limit traps, and ends
the call. So no address wraps. -/
def storedBytes (limit : Nat) (puts : List (Nat × List Byte)) : List (Nat × Byte) :=
  (puts.takeWhile fun p => p.1 + p.2.length ≤ limit).flatMap fun p => p.2.mapIdx fun i v =>
    (p.1 + i, v)

def faultIn (x : Nat) (m : Machine) : Except Panic Machine :=
  match entryAt m x with
  | some e => if present e then .ok m else doNoPage x m
  | none => doNoPage x m

def pageAt (m : Machine) (x : Nat) : Nat := pageOf ((entryAt m x).getD 0)

/-- Pages below 1 MB are constant as data. -/
def storeAt (m : Machine) (x : Nat) (v : Byte) : Machine :=
  if pageAt m x < LOW_MEM then m else storeByte m (pageAt m x) x v

def putFsByte (x : Nat) (v : Byte) (m : Machine) : Except Panic Machine := do
  let m ← faultIn x m
  return storeAt m x v

def putAll (base : Nat) : List (Nat × Byte) → Machine → Except Panic Machine
  | [], m => .ok m
  | (a, v) :: rest, m => do
    let m ← putFsByte (base + a) v m
    putAll base rest m

def verifyCall (τ : Task) (call : Call) (m : Machine) : Except Panic Machine :=
  match call.verified with
  | some (addr, size) => verifyArea τ addr size m
  | none => .ok m

def runCall (τ : Task) (call : Call) (m : Machine) : Except Panic Machine := do
  let m ← verifyCall τ call m
  putAll τ.base (storedBytes m.limit call.puts) m

def Apart (m : Machine) (t : TaskNr) (f : Nat) : Prop :=
  LOW_MEM ≤ f → ∀ u k, u ≠ t → hasTable m (slotDir u) → present (pte m (slotDir u) k) →
    pageOf (pte m (slotDir u) k) ≠ f

def PutsApart (t : TaskNr) (base : Nat) : List (Nat × Byte) → Machine → Prop
  | [], _ => True
  | (a, v) :: rest, m => ∀ m₁, faultIn (base + a) m = .ok m₁ →
    Apart m₁ t (pageAt m₁ (base + a)) ∧ PutsApart t base rest (storeAt m₁ (base + a) v)

def CallApart (t : TaskNr) (τ : Task) (call : Call) (m : Machine) : Prop :=
  ∀ m₁, verifyCall τ call m = .ok m₁ → PutsApart t τ.base (storedBytes m₁.limit call.puts) m₁

def countedOnce (m : Machine) (base a : Nat) : Prop :=
  ∀ e, entryAt m (base + a) = some e → present e → LOW_MEM ≤ pageOf e →
    m.memMap (mapNr (pageOf e)) = 1

/-- Nobody else maps the main-memory page under entry `k` of task `t`. -/
def Exclusive (m : Machine) (t : TaskNr) (k : Fin 1024) : Prop :=
  hasTable m (slotDir t) → present (pte m (slotDir t) k) → LOW_MEM ≤ pageOf (pte m (slotDir t) k) →
    ∀ i' k', hasTable m i' → present (pte m i' k') →
      pageOf (pte m i' k') = pageOf (pte m (slotDir t) k) →
      i' = slotDir t

theorem exclusive_iff_count (h : Inv c [] m) {k : Fin 1024} (hi : hasTable m (slotDir t))
    (hp : present (pte m (slotDir t) k)) (hlow : LOW_MEM ≤ pageOf (pte m (slotDir t) k)) :
    Exclusive m t k ↔ count m (pageOf (pte m (slotDir t) k)) = 1 := by
  have htarget := target_pte hi hp hlow
  constructor
  · intro hex
    have hone : refs (target m) (pageOf (pte m (slotDir t) k)) = 1 := by
      refine refs_eq_one htarget fun r hr => ?_
      match r with
      | .inl (i', k') =>
        have hr' : pteTarget m (i', k') = some (pageOf (pte m (slotDir t) k)) := hr
        have hi' : hasTable m i' := by
          by_contra hn
          simp [pteTarget, hn] at hr'
        rw [pteTarget, if_pos hi'] at hr'
        obtain ⟨hp', -, he⟩ := entryTarget_eq_some.mp hr'
        obtain rfl := hex hi hp hlow i' k' hi' hp' he
        rw [h.once _ k' k _ hr htarget]
      | .inr r =>
        -- tables and task pages have one reference, so this would be the entry itself
        have hsole := h.valid.sole (.inr r) _ trivial hr
        exact h.ref_unique hsole htarget hr
    have hex := h.valid.exact (pageOf (pte m (slotDir t) k))
    simp only [references, List.count_nil] at hex
    omega
  · intro hone _ _ _ i' k' hi' hp' he
    have hr : target m (.inl (i', k')) = some (pageOf (pte m (slotDir t) k)) := by
      simp [target, pteTarget, hi', entryTarget, hp', he, hlow]
    have heq := h.ref_unique hone htarget hr
    exact (Prod.mk.inj (Sum.inl.inj heq)).1

theorem exclusive_iff_countedOnce (h : Inv c [] m) (ht : t ≠ 0) {a : Nat} (ha : a < c.limit) :
    Exclusive m t (tableIndex a) ↔ countedOnce m (newBase t) a := by
  simp only [countedOnce, entryAt_linear ht ha]
  by_cases hi : hasTable m (slotDir t)
  · simp only [if_pos hi, Option.some.injEq, forall_eq']
    by_cases hp : present (pte m (slotDir t) (tableIndex a)) ∧
      LOW_MEM ≤ pageOf (pte m (slotDir t) (tableIndex a))
    · have hcount := h.count_eq (h.range _ _ (target_pte hi hp.1 hp.2))
      simp [exclusive_iff_count h hi hp.1 hp.2, hcount, hp]
    · constructor
      · intro _ hp' hlow
        exact absurd ⟨hp', hlow⟩ hp
      · intro _ _ hp' hlow
        exact absurd ⟨hp', hlow⟩ hp
  · simp [Exclusive, hi]

structure SameUse (c : Config) (t : TaskNr) (m m' : Machine) : Prop where
  inv : Inv c [] m'
  task : m'.task = m.task
  exclusive : ∀ k, Exclusive m' t k ↔ Exclusive m t k

theorem SameUse.trans {m'' : Machine} (h : SameUse c t m m') (h' : SameUse c t m' m'') :
    SameUse c t m m'' :=
  ⟨h'.inv, h'.task.trans h.task, fun k => (h'.exclusive k).trans (h.exclusive k)⟩

theorem exclusive_mapped {k : Fin 1024} (h : Mapped c m (slotDir t) k m')
    (habs : ¬ (hasTable m (slotDir t) ∧ present (pte m (slotDir t) k))) (k' : Fin 1024) :
    Exclusive m' t k' ↔ Exclusive m t k' := by
  have hone := (h.quiet.inv.private_count h.own).2
  have hlow := (h.quiet.inv.private_count h.own).1.1
  have hown := target_pte h.own.1 h.own.2.1 hlow
  constructor
  · intro hex hi hp hlow' i'' k'' hi'' hp'' he
    have hk' : k' ≠ k := fun e => habs ⟨hi, e ▸ hp⟩
    have hk'' : ¬ (i'' = slotDir t ∧ k'' = k) := fun e => habs ⟨hi, e.1 ▸ e.2 ▸ hp''⟩
    have hpte' := h.others _ k' hi fun e => hk' e.2
    have hpte'' := h.others i'' k'' hi'' hk''
    exact hex (h.tables _ hi) (hpte' ▸ hp) (hpte' ▸ hlow') i'' k'' (h.tables _ hi'') (hpte'' ▸ hp'')
      (hpte' ▸ hpte'' ▸ he)
  · intro hex hi hp hlow' i'' k'' hi'' hp'' he
    by_cases hk'' : i'' = slotDir t ∧ k'' = k
    · exact hk''.1
    · by_cases hk' : k' = k
      · subst hk'
        have hr : target m' (.inl (i'', k'')) = some (pageOf (pte m' (slotDir t) k')) := by
          rw [← he]
          exact target_pte hi'' hp'' (he ▸ hlow')
        have heq := h.quiet.inv.ref_unique hone hown hr
        exact (Prod.mk.inj (Sum.inl.inj heq)).1
      · have hi₀ := h.only _ k' hi hp fun e => hk' e.2
        have hi₀'' := h.only _ k'' hi'' hp'' hk''
        have hpte' := h.others _ k' hi₀ fun e => hk' e.2
        have hpte'' := h.others i'' k'' hi₀'' hk''
        rw [hpte'] at hp hlow' he
        rw [hpte''] at hp'' he
        exact hex hi₀ hp hlow' i'' k'' hi₀'' hp'' he

structure FaultedIn (c : Config) (t : TaskNr) (a : Nat) (m m₁ : Machine) : Prop where
  use : SameUse c t m m₁
  table : hasTable m₁ (slotDir t)
  page : present (pte m₁ (slotDir t) (tableIndex a))
  view : ∀ i k j, view m₁ i k j = view m i k j

theorem faultIn_spec {a : Nat} (h : Inv c [] m) (ht : t ≠ 0) (hl : Live m t) (ha : a < c.limit) :
    Holds (FaultedIn c t a m) (faultIn (newBase t + a) m) := by
  obtain ⟨τ, hτ, hz⟩ := hl
  have hfault : ¬ (hasTable m (slotDir t) ∧ present (pte m (slotDir t) (tableIndex a))) →
      Holds (FaultedIn c t a m) (doNoPage (newBase t + a) m) := by
    intro habs
    have hmap := h.doNoPage ht hτ hz (dirIndex_linear t ha) (by rwa [tableIndex_linear])
    rw [tableIndex_linear] at hmap
    exact hmap.mono fun m₁ hm₁ =>
      ⟨⟨hm₁.quiet.inv, hm₁.quiet.task, exclusive_mapped hm₁ habs⟩, hm₁.own.1,
      hm₁.own.2.1, hm₁.quiet.view⟩
  rw [faultIn, entryAt_linear ht ha]
  by_cases hi : hasTable m (slotDir t)
  · simp only [if_pos hi]
    by_cases hp : present (pte m (slotDir t) (tableIndex a))
    · rw [if_pos hp]
      exact ⟨⟨h, rfl, fun _ => .rfl⟩, hi, hp, fun _ _ _ => rfl⟩
    · rw [if_neg hp]
      exact hfault fun e => hp e.2
  · simp only [if_neg hi]
    exact hfault fun e => hi e.1

theorem pageAt_linear (ht : t ≠ 0) {a : Nat} (ha : a < c.limit) (hi : hasTable m (slotDir t)) :
    pageAt m (newBase t + a) = pageOf (pte m (slotDir t) (tableIndex a)) := by
  simp [pageAt, entryAt_linear ht ha, hi]

theorem apart_iff_exclusive {a : Nat} (h : Inv c [] m) (ht : t ≠ 0) (ha : a < c.limit)
    (hi : hasTable m (slotDir t)) (hp : present (pte m (slotDir t) (tableIndex a))) :
    Apart m t (pageAt m (newBase t + a)) ↔ Exclusive m t (tableIndex a) := by
  rw [pageAt_linear ht ha hi]
  constructor
  · intro hap _ _ hlow i' k' hi' hp' he
    obtain ⟨u, -, rfl, -, -⟩ := h.dirs i' hi'
    by_contra hne
    exact hap hlow u k' (fun e => hne (e ▸ rfl)) hi' hp' he
  · intro hex hlow u k' hu hi' hp' he
    exact hu (slotDir_inj (hex hi hp hlow _ k' hi' hp' he))

/-- A store into a mapped page keeps the tables; it is seen by nobody else if the
page is exclusive. -/
theorem storeAt_spec {a : Nat} (v : Byte) (h : Inv c [] m) (ht : t ≠ 0) (ha : a < c.limit)
    (hi : hasTable m (slotDir t)) (hp : present (pte m (slotDir t) (tableIndex a))) :
    SameUse c t m (storeAt m (newBase t + a) v) ∧ (Exclusive m t (tableIndex a) →
      ∀ u k j, u ≠ t → view (storeAt m (newBase t + a) v) (slotDir u) k j = view m
        (slotDir u) k j) := by
  rw [storeAt, pageAt_linear ht ha hi]
  by_cases hlow : pageOf (pte m (slotDir t) (tableIndex a)) < LOW_MEM
  · rw [if_pos hlow]
    exact ⟨⟨h, rfl, fun _ => .rfl⟩, fun _ _ _ _ _ => rfl⟩
  · rw [if_neg hlow]
    have hge := not_lt.mp hlow
    set f := pageOf (pte m (slotDir t) (tableIndex a)) with hf
    set x := Function.update (m.mem f) (wordIndex (newBase t + a))
      (setByte (m.mem f (wordIndex (newBase t + a))) ((newBase t + a) % 4) v)
    have hset : storeByte m f (newBase t + a) v = Machine.setPage m f x := rfl
    have hne : ∀ i, hasTable m i → pageOf (m.dir i) ≠ f :=
      fun i hi' => (h.page_ne_table hi' hi hp).symm
    have hsame := sameTables_setPage x hne
    rw [hset]
    refine ⟨⟨h.setPage x hge hne, rfl, fun k => ?_⟩, fun hex u k j hu => ?_⟩
    · have hiff : ∀ i, hasTable (Machine.setPage m f x) i ↔ hasTable m i := hsame.hasTable
      constructor
      · intro hex hi' hp' hlow' i'' k'' hi'' hp'' he
        have hpte := hsame.pte _ k hi'
        have hpte'' := hsame.pte i'' k'' hi''
        exact hex hi' (hpte ▸ hp') (hpte ▸ hlow') i'' k'' hi'' (hpte'' ▸ hp'') (hpte ▸ hpte'' ▸ he)
      · intro hex hi' hp' hlow' i'' k'' hi'' hp'' he
        have hpte := hsame.pte _ k ((hiff _).mp hi')
        have hpte'' := hsame.pte i'' k'' ((hiff _).mp hi'')
        rw [hpte] at hp' hlow' he
        rw [hpte''] at hp'' he
        exact hex hi' hp' hlow' i'' k'' hi'' hp'' he
    · have hone := (exclusive_iff_count h hi hp hge).mp hex
      rw [(h.store hi hp hge hone x).2, if_neg fun e => hu (slotDir_inj e.1)]

theorem putAll_spec {bytes : List (Nat × Byte)} (h : Inv c [] m) (ht : t ≠ 0) (hl : Live m t)
    (hbytes : ∀ p ∈ bytes, p.1 < c.limit) (hret : putAll (newBase t) bytes m = .ok m') :
    (PutsApart t (newBase t) bytes m ↔ ∀ p ∈ bytes, Exclusive m t (tableIndex p.1)) ∧
    ((∀ p ∈ bytes, Exclusive m t (tableIndex p.1)) →
      ∀ u k j, u ≠ t → view m' (slotDir u) k j = view m (slotDir u) k j) := by
  induction bytes generalizing m with
  | nil =>
    obtain rfl : m = m' := by simpa [putAll] using hret
    exact ⟨by simp [PutsApart], fun _ _ _ _ _ => rfl⟩
  | cons p rest ih =>
    obtain ⟨a, v⟩ := p
    have ha := hbytes (a, v) List.mem_cons_self
    have hfault := faultIn_spec h ht hl ha
    cases hm₁ : faultIn (newBase t + a) m with
    | error p => simp [putAll, putFsByte, hm₁, bind, Except.bind] at hret
    | ok m₁ =>
      rw [hm₁] at hfault
      have hstore := storeAt_spec v hfault.use.inv ht ha hfault.table hfault.page
      have huse := hfault.use.trans hstore.1
      have hret' : putAll (newBase t) rest (storeAt m₁ (newBase t + a) v) = .ok m' := by
        simpa [putAll, putFsByte, hm₁, bind, Except.bind, pure, Except.pure] using hret
      obtain ⟨hiff, hview⟩ := ih huse.inv ((live_congr huse.task t).mpr hl)
        (fun p hp => hbytes p (List.mem_cons_of_mem _ hp)) hret'
      have hhead := apart_iff_exclusive hfault.use.inv ht ha hfault.table hfault.page
      simp only [huse.exclusive] at hiff hview
      constructor
      · simp only [PutsApart, hm₁, Except.ok.injEq, forall_eq', List.forall_mem_cons, hiff, hhead,
          hfault.use.exclusive]
      · intro hall u k j hu
        rw [List.forall_mem_cons] at hall
        have hex := (hfault.use.exclusive _).mpr hall.1
        rw [hview hall.2 u k j hu, hstore.2 hex u k j hu, hfault.view]

theorem mem_storedBytes {limit : Nat} {puts : List (Nat × List Byte)} {p : Nat × Byte}
    (hp : p ∈ storedBytes limit puts) :
    p.1 < limit ∧ ∃ q ∈ puts, ∃ i < q.2.length, p.1 = q.1 + i := by
  obtain ⟨q, hq, hpq⟩ := List.mem_flatMap.mp hp
  have hlen := List.mem_takeWhile_imp hq
  obtain ⟨i, hi, rfl⟩ := List.mem_mapIdx.mp hpq
  simp only [decide_eq_true_eq] at hlen
  refine ⟨?_, q, List.takeWhile_subset _ hq, i, hi, rfl⟩
  simp only
  omega

theorem mem_putBytes {buf : Nat} {bytes : List Byte} {q : Nat × List Byte}
    (hq : q ∈ putBytes buf bytes) :
    ∃ i < bytes.length, q.1 = buf + i ∧ q.2.length = 1 := by
  obtain ⟨i, hi, rfl⟩ := List.mem_mapIdx.mp hq
  exact ⟨i, hi, rfl, rfl⟩

theorem mem_putLongs {esp : Nat} {longs : List Word} {q : Nat × List Byte}
    (hq : q ∈ putLongs esp longs) :
    ∃ i < longs.length, q.1 = esp + 4 * i ∧ q.2.length = 4 := by
  obtain ⟨i, hi, rfl⟩ := List.mem_mapIdx.mp hq
  exact ⟨i, hi, rfl, by simp [longBytes]⟩

theorem frameLongs_length (restorer signr : Word) (blocked : Option Word)
    (eax ecx edx eflags oldEip : Word) :
    (frameLongs restorer signr blocked eax ecx edx eflags oldEip).length ≤ 8 := by
  cases blocked <;> simp [frameLongs]

theorem verified_size {call : Call} {addr size : Nat} (hv : call.verified = some (addr, size)) :
    size ≤ 32 := by
  cases call with
  | fileRead buf bytes => simp [Call.verified] at hv
  | ttyRead buf bytes => simp [Call.verified] at hv
  | waitpid statAddr code =>
    obtain ⟨-, rfl⟩ : statAddr = addr ∧ 4 = size := by simpa [Call.verified] using hv
    omega
  | sigaction oldAction tmp =>
    obtain ⟨-, rfl⟩ : oldAction = addr ∧ 16 = size := by simpa [Call.verified] using hv
    omega
  | signal esp restorer signr blocked eax ecx edx eflags oldEip =>
    simp only [Call.verified, Option.some.injEq, Prod.mk.injEq] at hv
    have hlongs := frameLongs_length restorer signr blocked eax ecx edx eflags oldEip
    omega

theorem verified_covers {call : Call} {addr size limit : Nat} {p : Nat × Byte}
    (hv : call.verified = some (addr, size)) (hp : p ∈ storedBytes limit call.puts) :
    ∃ i < size, p.1 = addr + i := by
  obtain ⟨-, q, hq, j, hj, hpq⟩ := mem_storedBytes hp
  cases call with
  | fileRead buf bytes => simp [Call.verified] at hv
  | ttyRead buf bytes => simp [Call.verified] at hv
  | waitpid statAddr code =>
    obtain ⟨rfl, rfl⟩ : statAddr = addr ∧ 4 = size := by simpa [Call.verified] using hv
    obtain ⟨i, hi, hqi, hlen⟩ := mem_putLongs hq
    simp only [List.length_singleton] at hi
    exact ⟨j, by omega, by omega⟩
  | sigaction oldAction tmp =>
    obtain ⟨rfl, rfl⟩ : oldAction = addr ∧ 16 = size := by simpa [Call.verified] using hv
    obtain ⟨i, hi, hqi, hlen⟩ := mem_putBytes hq
    rw [List.length_ofFn] at hi
    exact ⟨i, hi, by omega⟩
  | signal esp restorer signr blocked eax ecx edx eflags oldEip =>
    simp only [Call.verified, Option.some.injEq, Prod.mk.injEq] at hv
    obtain ⟨i, hi, hqi, hlen⟩ := mem_putLongs hq
    exact ⟨4 * i + j, by omega, by omega⟩

theorem verifyArea_spec (t : TaskNr) (addr : Nat) {size : Nat} (h : Inv c [] m)
    (hbase : τ.base = newBase t) (hsize : size + addr % 4096 < 2 ^ 31) :
    Holds (fun m₁ => Quiet c m m₁ ∧ ∀ i < size, addr + i < c.limit →
      Safe m₁ (slotDir t) (tableIndex (addr + i)) ∧ Exclusive m₁ t (tableIndex (addr + i)))
      (verifyArea τ addr size m) := by
  have hlong : toLong ((size + addr % 4096) % 2 ^ 32) = (size + addr % 4096 : Nat) := by
    have hmod : (size + addr % 4096) % 2 ^ 32 = size + addr % 4096 := by omega
    rw [hmod, toLong, if_pos (by omega)]
  simp only [verifyArea, hlong, hbase]
  refine (h.verifyLoop _ _).mono fun m₁ hloop => ?_
  obtain ⟨hm₁, hsafe⟩ := hloop
  refine ⟨hm₁.quiet, fun i hi ha => ?_⟩
  have hpage := hsafe ((addr % 4096 + i) / 4096) (by omega)
  have hstart : newBase t + (addr - addr % 4096 + 4096 * ((addr % 4096 + i) / 4096)) =
      addr - addr % 4096 + newBase t + 4096 * ((addr % 4096 + i) / 4096) := by omega
  rw [← dirIndex_mod, ← tableIndex_mod, Nat.mod_add_mod, dirIndex_mod, tableIndex_mod, ← hstart,
    dirIndex_linear (c := c) t (by omega), tableIndex_linear] at hpage
  have htab : tableIndex (addr - addr % 4096 + 4096 * ((addr % 4096 + i) / 4096)) = tableIndex
      (addr + i) := by
    refine Fin.ext ?_
    simp only [tableIndex, Fin.ofNat]
    omega
  rw [htab] at hpage
  refine ⟨hpage, fun hit hp hlow => ?_⟩
  have hone := (hm₁.quiet.inv.private_count ⟨hit, hp, hpage hit hp⟩).2
  exact (exclusive_iff_count hm₁.quiet.inv hit hp hlow).mpr hone hit hp hlow

/-- A call stores into no shared page exactly when it runs `verify_area` first, or
every main-memory page that its bytes fall in is counted once in `mem_map`. -/
theorem kernel_stores_apart_iff (c : Config) {as : List Act} {es : List Event} {call : Call}
    (h : trace step (boot c) as = some (es, m)) (ht : t ≠ 0) (hτ : m.task t = some τ)
    (hz : τ.state ≠ .zombie) (hret : runCall τ call m = .ok m') :
    (CallApart t τ call m ∧ ∀ u, u ≠ t → ∀ a, viewByte m' u a = viewByte m u a) ↔
      call.verified.isSome ∨ ∀ p ∈ storedBytes m.limit call.puts, countedOnce m τ.base p.1 := by
  have hinv := inv_of_trace h
  have hbase := hinv.base t τ hτ
  have hl : Live m t := ⟨τ, hτ, hz⟩
  simp only [CallApart, hbase]
  cases hv : call.verified with
  | none =>
    have hverify : verifyCall τ call m = .ok m := by simp [verifyCall, hv]
    have hputs : putAll (newBase t) (storedBytes m.limit call.puts) m = .ok m' := by
      simpa [runCall, hverify, hbase] using hret
    obtain ⟨hiff, hview⟩ :=
      putAll_spec hinv ht hl (fun p hp => hinv.limit ▸ (mem_storedBytes hp).1) hputs
    have hcount : (∀ p ∈ storedBytes m.limit call.puts, Exclusive m t (tableIndex p.1)) ↔
        ∀ p ∈ storedBytes m.limit call.puts, countedOnce m (newBase t) p.1 :=
      forall₂_congr fun p hp => exclusive_iff_countedOnce hinv ht
        (hinv.limit ▸ (mem_storedBytes hp).1)
    simp only [hverify, Except.ok.injEq, forall_eq', Option.isSome_none, Bool.false_eq_true,
      false_or, hiff,
      ← hcount]
    exact ⟨fun e => e.1, fun e => ⟨e, fun u hu a => viewByte_congr (fun k j => hview e u k j hu) a⟩⟩
  | some area =>
    obtain ⟨addr, size⟩ := area
    have hverify : verifyCall τ call m = verifyArea τ addr size m := by simp [verifyCall, hv]
    have hsize := verified_size hv
    have hspec := verifyArea_spec t addr hinv hbase (show size + addr % 4096 < 2 ^ 31 by omega)
    simp only [hverify, Option.isSome_some, true_or, iff_true]
    cases hm₁ : verifyArea τ addr size m with
    | error p => simp [runCall, hverify, hm₁, bind, Except.bind] at hret
    | ok m₁ =>
      rw [hm₁] at hspec
      obtain ⟨hquiet, hex⟩ := hspec
      have hputs : putAll (newBase t) (storedBytes m₁.limit call.puts) m₁ = .ok m' := by
        simpa [runCall, hverify, hm₁, hbase, bind, Except.bind] using hret
      have hlt : ∀ p ∈ storedBytes m₁.limit call.puts, p.1 < c.limit := fun p hp =>
        hquiet.inv.limit ▸ (mem_storedBytes hp).1
      obtain ⟨hiff, hview⟩ :=
        putAll_spec hquiet.inv ht ((live_congr hquiet.task t).mpr hl) hlt hputs
      have hall : ∀ p ∈ storedBytes m₁.limit call.puts, Exclusive m₁ t (tableIndex p.1) := by
        intro p hp
        obtain ⟨i, hi, hpi⟩ := verified_covers hv hp
        rw [hpi]
        exact (hex i hi (hpi ▸ hlt p hp)).2
      refine ⟨fun m₂ hm₂ => ?_, fun u hu a => viewByte_congr (fun k j => ?_) a⟩
      · obtain rfl := Except.ok.inj hm₂
        exact hiff.mpr hall
      · rw [hview hall u k j hu, hquiet.view]

def callFrom (acts : List Act) (t : TaskNr) (call : Call) : Option (Machine × Task × Machine) :=
  (trace step (boot bootConfig) acts).bind fun r => (r.2.task t).bind fun τ =>
    (runCall τ call r.2).toOption.map fun m' => (r.2, τ, m')

theorem callFrom_some {acts : List Act} {call : Call} (h : callFrom acts t call = some (m, τ, m')) :
    (∃ es, trace step (boot bootConfig) acts = some (es, m)) ∧ m.task t = some τ ∧
      runCall τ call m = .ok m' := by
  obtain ⟨⟨es, m₁⟩, hm₁, h⟩ := Option.bind_eq_some_iff.mp h
  obtain ⟨τ₁, hτ₁, h⟩ := Option.bind_eq_some_iff.mp h
  obtain ⟨m₂, hm₂, he⟩ := Option.map_eq_some_iff.mp h
  obtain ⟨rfl, rfl, rfl⟩ : m₁ = m ∧ τ₁ = τ ∧ m₂ = m' := by simpa using he
  refine ⟨⟨es, hm₁⟩, hτ₁, ?_⟩
  simp only at hm₂
  cases hr : runCall τ₁ call m₁ with
  | ok m => rw [hr] at hm₂; simpa [Except.toOption] using hm₂
  | error p => rw [hr] at hm₂; simp [Except.toOption] at hm₂

def sharedPage : List Act := [.fork 0, .write 1 5 7, .write 1 5 7, .fork 1]

set_option maxRecDepth 20000 in
theorem sharedPage_calls :
    ((callFrom sharedPage 2 (.waitpid 5 0x7f)).any fun r => r.2.1.state ≠ .zombie) = true ∧
    ((callFrom sharedPage 2 (.fileRead 5 [9])).any fun r => viewByte r.1 1 5 = 7 ∧
      viewByte r.2.2 1 5 = 9) = true ∧
    ((callFrom sharedPage 2 (.waitpid 5 0x7f)).any fun r =>
      r.1.limit = 0xA0000 ∧ (verifyArea r.2.1 5 4 r.1).toOption.isSome) = true := by
  decide +kernel

theorem kernel_stores_apart_iff_waitpid : ∃ m τ m',
    callFrom sharedPage 2 (.waitpid 5 0x7f) = some (m, τ, m') ∧
    CallApart 2 τ (.waitpid 5 0x7f) m := by
  obtain ⟨⟨m, τ, m'⟩, h, hz⟩ := (Option.any_eq_true _ _).mp sharedPage_calls.1
  obtain ⟨⟨es, hm⟩, hτ, hret⟩ := callFrom_some h
  exact ⟨m, τ, m', h,
    ((kernel_stores_apart_iff bootConfig hm (by decide) hτ (by simpa using hz) hret).mpr
      (.inl rfl)).1⟩

theorem file_read_stores_into_shared_page : ∃ m τ m',
    callFrom sharedPage 2 (.fileRead 5 [9]) = some (m, τ, m') ∧
    viewByte m 1 5 = 7 ∧ viewByte m' 1 5 = 9 := by
  obtain ⟨⟨m, τ, m'⟩, h, hview⟩ := (Option.any_eq_true _ _).mp sharedPage_calls.2.1
  exact ⟨m, τ, m', h, by simpa using hview⟩

end Hios.Kernel
