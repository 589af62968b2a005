/-
  Subject: THE KERNEL HEAP (`mm/kmalloc.c`): per node of the machine nine slab caches with free
  lists linked through the free objects, a bump region behind them, and a table that tells for every
  16 bytes of the pool which cache owns them.

  `kmalloc_partition`: for 1 to 8 nodes and every sequence of allocations of at most 4096 bytes,
  releases of live pointers and stores into live regions, the live regions and the free objects
  divide the pool. The pools of 3, 5, 6 or 7 nodes do not start at multiples of 16: an object then
  covers parts of two entries of the table, but its first byte lies in an entry of its own cache.
-/
import Mathlib.Data.List.Basic
import Mathlib.Logic.Function.Basic
import Kobalt.Lib.Linked
import Kobalt.Lib.Run

namespace Kobalt.Mm

open Function Nat

/-! ## 1. The code -/

abbrev heapPoolSize : Nat := 16777216
abbrev kmallocMinSize : Nat := 16
abbrev kmallocNumCaches : Nat := 9
abbrev numaMaxNodes : Nat := 8
abbrev ownerBump : Nat := 0xF
abbrev ownerInvalid : Nat := 0xFF
abbrev baseSlabTotal : Nat := 557056

/-- **`heap_pool` as the linker places it**: page aligned, not at address 0, and with addresses
    to spare behind it (the kernel is linked at 2 MiB). -/
structure HeapPool where
  base : Nat
  aligned : base % 4096 = 0
  pos : 0 < base
  fits : base + 2 * heapPoolSize ≤ 2 ^ 64

def cacheSizes : List Nat := [16, 32, 64, 128, 256, 512, 1024, 2048, 4096]

def baseQuotas : List Nat := [1024, 512, 512, 256, 256, 128, 64, 64, 32]

def cacheSize (ci : Nat) : Nat := cacheSizes.getD ci 0

def baseQuota (ci : Nat) : Nat := baseQuotas.getD ci 0

/-- `kmem_cache_t`; address 0 is NULL. -/
structure KmemCache where
  objSize : Nat := 0
  freelist : Nat := 0
  total : Nat := 0
  freeCount : Nat := 0
  cbase : Nat := 0

/-- The static data of `kmalloc.c`, and the memory the free lists live in. -/
structure Heap where
  mem : Bytes
  caches : Nat → Nat → KmemCache := fun _ _ => {}
  bumpPtr : Nat → Nat := fun _ => 0
  bumpEnd : Nat → Nat := fun _ => 0
  slabOwner : Nat → Nat
  activeNodes : Nat

def Heap.setCache (h : Heap) (nid ci : Nat) (c : KmemCache) : Heap :=
  { h with caches := update h.caches nid (update (h.caches nid) ci c) }

theorem Heap.setCache_caches (h : Heap) (nid ci : Nat) (c : KmemCache) (nid' ci' : Nat) :
    (h.setCache nid ci c).caches nid' ci' = if nid' = nid ∧ ci' = ci then c else h.caches nid' ci' := by
  unfold Heap.setCache
  by_cases h1 : nid' = nid
  · subst h1
    by_cases h2 : ci' = ci
    · subst h2
      rw [if_pos ⟨rfl, rfl⟩]
      simp only [update_self]
    · rw [if_neg fun h => h2 h.2]
      simp only [update_self, update_of_ne h2]
  · rw [if_neg fun h => h1 h.1]
    simp only [update_of_ne h1]

def cidxFor (sz : Nat) : Nat := cacheSizes.findIdx fun s => sz ≤ s

def nodeQuota (ci poolSz : Nat) : Nat :=
  let target := poolSz * 3 / 4
  let q := baseQuota ci * target / baseSlabTotal
  let q := if q > baseQuota ci then baseQuota ci else q
  if q ≠ 0 then q else 1

section Code

variable (hp : HeapPool)

/-- One round of the loop over the caches in `init_node`; `off` is the offset in the node's pool. -/
def initCache (nid base psz : Nat) (acc : Heap × Nat) (ci : Nat) : Heap × Nat :=
  let (h, off) := acc
  let objSz := cacheSize ci
  let nobj := nodeQuota ci psz
  let region := objSz * nobj
  let linked := linkObjects h.mem (base + off) objSz nobj
  let first := (base + off - hp.base) / kmallocMinSize
  let ngran := region / kmallocMinSize
  let tag := (nid <<< 4 ||| ci) % 256
  ({ h.setCache nid ci ⟨objSz, linked.2, nobj, nobj, base + off⟩ with
      mem := linked.1
      slabOwner := fun g => if first ≤ g ∧ g < first + ngran then tag else h.slabOwner g },
    off + region)

/-- The end of `init_node`: what the caches leave of the pool is the bump region. -/
def initBump (nid base psz : Nat) (acc : Heap × Nat) : Heap :=
  let (h, off) := acc
  let bstart := (base + off - hp.base) / kmallocMinSize
  let bend := (base + psz - hp.base) / kmallocMinSize
  let btag := (nid <<< 4 ||| ownerBump) % 256
  { h with
    slabOwner := fun g => if bstart ≤ g ∧ g < bend then btag else h.slabOwner g
    bumpPtr := update h.bumpPtr nid (base + off)
    bumpEnd := update h.bumpEnd nid (base + psz) }

def initNode (psz : Nat) (h : Heap) (nid : Nat) : Heap :=
  let base := hp.base + nid * psz
  initBump hp nid base psz ((List.range kmallocNumCaches).foldl (initCache hp nid base psz) (h, 0))

/-- `kmalloc_init` on memory with any contents; `count` is `numa_node_count()`. -/
def kmallocInit (count : Nat) (mem : Bytes) : Heap :=
  let activeNodes := if count = 0 ∨ count > numaMaxNodes then 1 else count
  let perNode := heapPoolSize / activeNodes
  (List.range activeNodes).foldl (initNode hp perNode)
    { mem := mem, slabOwner := fun _ => ownerInvalid, activeNodes := activeNodes }

def flValid (p : Nat) : Bool := p ≥ hp.base && p < hp.base + heapPoolSize

def allocFromNode (h : Heap) (ci nid : Nat) : Option Nat × Heap :=
  let c := h.caches nid ci
  if c.freelist = 0 then (none, h)
  else if !flValid hp c.freelist then (none, h.setCache nid ci { c with freelist := 0, freeCount := 0 })
  else
    (some c.freelist,
      h.setCache nid ci { c with freelist := leAt h.mem c.freelist 8, freeCount := c.freeCount - 1 })

def bumpAlloc (h : Heap) (sz nid : Nat) : Option Nat × Heap :=
  let a := (h.bumpPtr nid + 63) % 2 ^ 64 / 64 * 64
  if (a + sz) % 2 ^ 64 > h.bumpEnd nid then (none, h)
  else (some a, { h with bumpPtr := update h.bumpPtr nid ((a + sz) % 2 ^ 64) })

/-- The node asked for, then the others in order. -/
def nodeOrder (activeNodes node : Nat) : List Nat :=
  node :: (List.range activeNodes).filter fun n => n ≠ node

/-- The first node that has something: its number and the pointer. -/
def firstNode (alloc : Heap → Nat → Option Nat × Heap) : Heap → List Nat → Option (Nat × Nat) × Heap
  | h, [] => (none, h)
  | h, nid :: rest =>
    match alloc h nid with
    | (some p, h) => (some (nid, p), h)
    | (none, h) => firstNode alloc h rest

/-- `kmalloc_node`, with the node and cache an object was taken from (`none`: a bump region). -/
def kmallocFrom (h : Heap) (sz node : Nat) : Option (Nat × Option (Nat × Nat)) × Heap :=
  if sz = 0 then (none, h)
  else
    let node := if node ≥ h.activeNodes then 0 else node
    let ci := cidxFor sz
    let order := nodeOrder h.activeNodes node
    let slab :=
      if ci < kmallocNumCaches then firstNode (fun h nid => allocFromNode hp h ci nid) h order else (none, h)
    match slab with
    | (some (nid, p), h) => (some (p, some (nid, ci)), h)
    | (none, h) =>
      match firstNode (fun h nid => bumpAlloc h sz nid) h order with
      | (some (_, p), h) => (some (p, none), h)
      | (none, h) => (none, h)

def kmallocNode (h : Heap) (sz node : Nat) : Option Nat × Heap :=
  ((kmallocFrom hp h sz node).1.map Prod.fst, (kmallocFrom hp h sz node).2)

def kfree (h : Heap) (ptr : Nat) : Heap :=
  if ptr = 0 then h
  else if ptr < hp.base ∨ ptr ≥ hp.base + heapPoolSize then h
  else
    let ow := h.slabOwner ((ptr - hp.base) / kmallocMinSize)
    let nid := ow >>> 4
    let ci := ow &&& 0xF
    if ow = ownerInvalid ∨ ci = ownerBump ∨ nid ≥ h.activeNodes then h
    else
      let c := h.caches nid ci
      if (ptr + (2 ^ 64 - c.cbase)) % 2 ^ 64 % c.objSize ≠ 0 then h
      else if c.freeCount ≥ c.total then h
      else
        { h.setCache nid ci { c with freelist := ptr, freeCount := c.freeCount + 1 } with
          mem := putLE h.mem ptr 8 c.freelist }

end Code

/-! ## 2. The layout -/

/-- The offset of a cache in its node's pool. -/
def cacheOff : Nat → Nat
  | 0 => 0
  | ci + 1 => cacheOff ci + cacheSize ci * baseQuota ci

theorem cache_facts : ∀ ci < kmallocNumCaches, 16 ≤ cacheSize ci ∧ cacheSize ci % 16 = 0 ∧
    cacheSize ci ≤ 4096 ∧ 0 < baseQuota ci ∧ cacheOff ci % 16 = 0 ∧ cacheOff (ci + 1) ≤ baseSlabTotal := by
  decide

theorem cacheOff_mono {ci ci' : Nat} (h : ci ≤ ci') : cacheOff ci ≤ cacheOff ci' :=
  monotone_nat_of_le_succ (f := cacheOff) (fun _ => le_add_right _ _) h

theorem cacheOff_end : cacheOff kmallocNumCaches = baseSlabTotal := by decide

theorem nodeQuota_eq {ci psz : Nat} (hci : ci < kmallocNumCaches) (hp : 2097152 ≤ psz) :
    nodeQuota ci psz = baseQuota ci := by
  have hq := (cache_facts ci hci).2.2.2.1
  have hle : baseQuota ci ≤ baseQuota ci * (psz * 3 / 4) / baseSlabTotal := by
    rw [le_div_iff_mul_le (by decide)]
    exact mul_le_mul_left _ (show 557056 ≤ psz * 3 / 4 by omega)
  unfold nodeQuota
  grind

section Layout

variable (hp : HeapPool) (n : Nat)

/-- The size of a node's pool. -/
def perNode : Nat := heapPoolSize / n

def nodeBase (nid : Nat) : Nat := hp.base + nid * perNode n

def cacheBase (nid ci : Nat) : Nat := nodeBase hp n nid + cacheOff ci

/-- **An object** of a cache. -/
def IsObj (nid ci a : Nat) : Prop := a ∈ objects (cacheBase hp n nid ci) (cacheSize ci) (baseQuota ci)

end Layout

section Geometry

variable {hp : HeapPool} {n nid ci nid' ci' a b : Nat}

theorem le_perNode (hr : 1 ≤ n ∧ n ≤ numaMaxNodes) : 2097152 ≤ perNode n :=
  show heapPoolSize / 8 ≤ heapPoolSize / n from div_le_div_left hr.2 hr.1

theorem nodeBase_lt (hp : HeapPool) (n : Nat) (h : nid < nid') : nodeBase hp n nid + perNode n ≤ nodeBase hp n nid' := by
  have := mul_le_mul_right (perNode n) (succ_le_of_lt h)
  grind [nodeBase]

/-- The pools of two nodes do not meet. -/
theorem nodes_apart (hp : HeapPool) (n i k : Nat) : i = k ∨ nodeBase hp n i + perNode n ≤ nodeBase hp n k ∨
    nodeBase hp n k + perNode n ≤ nodeBase hp n i := by
  rcases lt_trichotomy i k with h | h | h
  · exact .inr (.inl (nodeBase_lt hp n h))
  · exact .inl h
  · exact .inr (.inr (nodeBase_lt hp n h))

theorem nodeBase_end (hp : HeapPool) (h : nid < n) :
    hp.base ≤ nodeBase hp n nid ∧ nodeBase hp n nid + perNode n ≤ hp.base + heapPoolSize :=
  ⟨le_add_right _ _, (nodeBase_lt hp n h).trans (Nat.add_le_add_left (mul_div_le _ _) _)⟩

theorem IsObj.bounds (h : IsObj hp n nid ci a) :
    cacheBase hp n nid ci ≤ a ∧ a + cacheSize ci ≤ nodeBase hp n nid + cacheOff (ci + 1) := by
  obtain ⟨j, hj, rfl⟩ := mem_objects.1 h
  have := row_disjoint (cacheBase hp n nid ci) (cacheSize ci) hj
  have hend : cacheOff (ci + 1) = cacheOff ci + cacheSize ci * baseQuota ci := rfl
  have hbase : cacheBase hp n nid ci = nodeBase hp n nid + cacheOff ci := rfl
  grind

theorem IsObj.inside (h : IsObj hp n nid ci a) (hr : 1 ≤ n ∧ n ≤ numaMaxNodes) (hn : nid < n)
    (hci : ci < kmallocNumCaches) : 16 ≤ cacheSize ci ∧ hp.base ≤ a ∧ a + cacheSize ci ≤ hp.base + heapPoolSize := by
  obtain ⟨hb1, hb2⟩ := h.bounds
  obtain ⟨he1, he2⟩ := nodeBase_end hp hn
  have hfit := (cache_facts ci hci).2.2.2.2.2
  have hper := le_perNode hr
  have hslab : baseSlabTotal = 557056 := rfl
  have hbase : cacheBase hp n nid ci = nodeBase hp n nid + cacheOff ci := rfl
  exact ⟨(cache_facts ci hci).1, by omega, by omega⟩

/-- **Objects do not meet**, of one cache or of two. -/
theorem IsObj.apart (hper : baseSlabTotal ≤ perNode n) (ha : IsObj hp n nid ci a) (hb : IsObj hp n nid' ci' b)
    (hci : ci < kmallocNumCaches) (hci' : ci' < kmallocNumCaches) (hne : nid = nid' → ci = ci' → a ≠ b) :
    a + cacheSize ci ≤ b ∨ b + cacheSize ci' ≤ a := by
  have hca := (cache_facts ci hci).2.2.2.2.2
  have hcb := (cache_facts ci' hci').2.2.2.2.2
  obtain ⟨ha1, ha2⟩ := ha.bounds
  obtain ⟨hb1, hb2⟩ := hb.bounds
  have hba : cacheBase hp n nid ci = nodeBase hp n nid + cacheOff ci := rfl
  have hbb : cacheBase hp n nid' ci' = nodeBase hp n nid' + cacheOff ci' := rfl
  rcases nodes_apart hp n nid nid' with rfl | h | h
  · rcases lt_trichotomy ci ci' with h | h | h
    · have := cacheOff_mono (show ci + 1 ≤ ci' from h)
      omega
    · subst h
      obtain ⟨i, hi, rfl⟩ := mem_objects.1 ha
      obtain ⟨j, hj, rfl⟩ := mem_objects.1 hb
      rcases lt_trichotomy i j with h | h | h
      · exact .inl (row_disjoint _ _ h)
      · exact absurd (by rw [h]) (hne rfl rfl)
      · exact .inr (row_disjoint _ _ h)
    · have := cacheOff_mono (show ci' + 1 ≤ ci from h)
      omega
  · omega
  · omega

/-- The entry of the table for an object's first byte: the pool of a node may start inside an entry,
    and all offsets in it are multiples of 16. -/
theorem granule_add (nb : Nat) {off : Nat} (h : off % 16 = 0) : (nb + off) / 16 = nb / 16 + off / 16 := by
  omega

end Geometry

/-! ## 3. Initialisation -/

section Init

variable (hp : HeapPool) (n : Nat)

/-- The first table entry of a cache. -/
def firstGranule (nid ci : Nat) : Nat := nid * perNode n / 16 + cacheOff ci / 16

/-- **A cache as `init_node` leaves it.** -/
structure CacheInit (h : Heap) (nid ci : Nat) : Prop where
  cache : h.caches nid ci =
    ⟨cacheSize ci, cacheBase hp n nid ci, baseQuota ci, baseQuota ci, cacheBase hp n nid ci⟩
  linked : Linked h.mem (cacheBase hp n nid ci) (objects (cacheBase hp n nid ci) (cacheSize ci) (baseQuota ci))
  owner : ∀ g, firstGranule n nid ci ≤ g → g < firstGranule n nid (ci + 1) → h.slabOwner g = nid * 16 + ci

/-- **The bump region of a node as `init_node` leaves it.** -/
structure BumpInit (h : Heap) (nid : Nat) : Prop where
  ptr : h.bumpPtr nid = nodeBase hp n nid + baseSlabTotal
  fin : h.bumpEnd nid = nodeBase hp n nid + perNode n
  owner : ∀ g, firstGranule n nid kmallocNumCaches ≤ g → g < firstGranule n (nid + 1) 0 →
    h.slabOwner g = nid * 16 + ownerBump

/-- **The work done so far**: the nodes below `N`, and `C` caches of node `N`. The rest of the table
    is still invalid. -/
structure InitTo (h : Heap) (N C : Nat) : Prop where
  nodes : h.activeNodes = n
  caches : ∀ nid ci, ci < kmallocNumCaches → (nid < N ∨ nid = N ∧ ci < C) → CacheInit hp n h nid ci
  bumps : ∀ nid < N, BumpInit hp n h nid
  invalid : ∀ g, firstGranule n N C ≤ g → h.slabOwner g = ownerInvalid

end Init

section InitSteps

variable {hp : HeapPool} {n N C nid ci : Nat} {h : Heap}

theorem firstGranule_eq (hC : C ≤ kmallocNumCaches) :
    (nodeBase hp n N + cacheOff C - hp.base) / kmallocMinSize = firstGranule n N C := by
  have hmod : ∀ c < 10, cacheOff c % 16 = 0 := by decide
  have he : nodeBase hp n N + cacheOff C - hp.base = N * perNode n + cacheOff C := by
    unfold nodeBase
    omega
  rw [he]
  exact granule_add _ (hmod C (lt_succ_of_le hC))

/-- Everything before the cache under work ends where it begins, in memory and in the table. -/
theorem before_front (hp : HeapPool) (hper : baseSlabTotal + 16 ≤ perNode n) (hci : ci < kmallocNumCaches)
    (hlt : nid < N ∨ nid = N ∧ ci < C) : nodeBase hp n nid + cacheOff (ci + 1) ≤ cacheBase hp n N C ∧
      firstGranule n nid (ci + 1) ≤ firstGranule n N C := by
  have hfit := (cache_facts ci hci).2.2.2.2.2
  have hH : baseSlabTotal = 557056 := rfl
  have hbase : cacheBase hp n N C = nodeBase hp n N + cacheOff C := rfl
  unfold firstGranule
  rcases hlt with h | ⟨rfl, h⟩
  · have h1 := nodeBase_lt hp n h
    have h2 := mul_le_mul_right (perNode n) (succ_le_of_lt h)
    rw [succ_mul] at h2
    omega
  · have h1 := cacheOff_mono (show ci + 1 ≤ C from h)
    omega

theorem tag_eq : ∀ nid < 8, ∀ c < 16, (nid <<< 4 ||| c) % 256 = nid * 16 + c := by decide

theorem CacheInit.frame {h' : Heap} (hc : CacheInit hp n h nid ci) (hci : ci < kmallocNumCaches)
    (hcache : h'.caches nid ci = h.caches nid ci)
    (hmem : ∀ x, x < nodeBase hp n nid + cacheOff (ci + 1) → h'.mem x = h.mem x)
    (howner : ∀ g, g < firstGranule n nid (ci + 1) → h'.slabOwner g = h.slabOwner g) :
    CacheInit hp n h' nid ci := by
  refine ⟨hcache.trans hc.cache, hc.linked.congr fun a ha => ?_,
    fun g h1 h2 => (howner g h2).trans (hc.owner g h1 h2)⟩
  have hb := (show IsObj hp n nid ci a from ha).bounds
  grind [cache_facts, leAt_congr]

section

variable (hr : 1 ≤ n ∧ n ≤ numaMaxNodes) (hN : N < n)
include hr hN

theorem initCache_spec (hC : C < kmallocNumCaches) (hi : InitTo hp n h N C) :
    (initCache hp N (nodeBase hp n N) (perNode n) (h, cacheOff C) C).2 = cacheOff (C + 1) ∧
      InitTo hp n (initCache hp N (nodeBase hp n N) (perNode n) (h, cacheOff C) C).1 N (C + 1) := by
  have hper := le_perNode hr
  have hslab : baseSlabTotal = 557056 := rfl
  have hpool : heapPoolSize = 16777216 := rfl
  obtain ⟨hb1, hb2⟩ := nodeBase_end hp hN
  obtain ⟨hs16, hsm, hs4, hq, hom, hfit⟩ := cache_facts C hC
  have hoff : cacheOff (C + 1) = cacheOff C + cacheSize C * baseQuota C := rfl
  have hposB := hp.pos
  have hfits := hp.fits
  have hspec := linkObjects_spec h.mem (show 0 < cacheBase hp n N C by unfold cacheBase; omega)
    (show 8 ≤ cacheSize C by omega) (show cacheBase hp n N C + baseQuota C * cacheSize C ≤ 256 ^ 8 by
      grind [cacheBase])
  have hhead := linkObjects_head h.mem (cacheBase hp n N C) (cacheSize C) hq
  rw [hhead] at hspec
  obtain ⟨hlinked, hout⟩ := hspec
  have hgran : firstGranule n N C + cacheSize C * baseQuota C / kmallocMinSize = firstGranule n N (C + 1) := by
    have hdiv : (cacheOff C + cacheSize C * baseQuota C) / 16 =
        cacheOff C / 16 + cacheSize C * baseQuota C / 16 := by omega
    unfold firstGranule
    rw [hoff, hdiv, add_assoc]
  refine ⟨by unfold initCache; rw [nodeQuota_eq hC hper, hoff], ?_⟩
  unfold initCache
  simp only [nodeQuota_eq hC hper, firstGranule_eq (le_of_lt hC), hgran,
    tag_eq N (lt_of_lt_of_le hN hr.2) C (lt_trans hC (by decide))]
  have hother : ∀ nid ci, (nid < N ∨ nid = N ∧ ci < C) → ∀ c, (update h.caches N (update (h.caches N) C c)) nid ci =
      h.caches nid ci := by
    rintro nid ci hlt c
    rcases hlt with hlt | ⟨rfl, hlt⟩
    · rw [update_of_ne (by omega)]
    · rw [update_self, update_of_ne (by omega)]
  refine ⟨hi.nodes, fun nid ci hci hlt => ?_, fun nid hnid => ?_, fun g hg => ?_⟩
  · by_cases hlast : nid = N ∧ ci = C
    · obtain ⟨rfl, rfl⟩ := hlast
      refine ⟨?_, hlinked, fun g hg1 hg2 => if_pos ⟨hg1, hg2⟩⟩
      show (update h.caches nid (update (h.caches nid) ci _)) nid ci = _
      rw [update_self, update_self, show nodeBase hp n nid + cacheOff ci = cacheBase hp n nid ci from rfl, hhead]
    · have hlt' : nid < N ∨ nid = N ∧ ci < C := by omega
      obtain ⟨hfront, hgfront⟩ := before_front hp (show baseSlabTotal + 16 ≤ perNode n by omega) hci hlt'
      exact (hi.caches nid ci hci hlt').frame hci (hother nid ci hlt' _) (fun x hx => hout x (by omega))
        fun g hg => if_neg (by omega)
  · have hb := hi.bumps nid hnid
    refine ⟨hb.ptr, hb.fin, fun g hg1 hg2 => (if_neg ?_).trans (hb.owner g hg1 hg2)⟩
    have hmul := mul_le_mul_right (perNode n) (show nid + 1 ≤ N from hnid)
    grind [firstGranule, cacheOff]
  · have hle : firstGranule n N C ≤ firstGranule n N (C + 1) := hgran ▸ le_add_right _ _
    exact (if_neg (by omega)).trans (hi.invalid g (by omega))

theorem initCaches_spec (hi : InitTo hp n h N 0) : ∀ C ≤ kmallocNumCaches,
      ((List.range C).foldl (initCache hp N (nodeBase hp n N) (perNode n)) (h, 0)).2 = cacheOff C ∧
      InitTo hp n ((List.range C).foldl (initCache hp N (nodeBase hp n N) (perNode n)) (h, 0)).1 N C := by
  intro C
  induction C with
  | zero => exact fun _ => ⟨rfl, hi⟩
  | succ C ih =>
    intro hC
    obtain ⟨hoff, hto⟩ := ih (le_of_succ_le hC)
    grind [List.range_succ, initCache_spec]

theorem initBump_spec (hi : InitTo hp n h N kmallocNumCaches) :
    InitTo hp n (initBump hp N (nodeBase hp n N) (perNode n) (h, cacheOff kmallocNumCaches)) (N + 1) 0 := by
  have hper := le_perNode hr
  have hslab : baseSlabTotal = 557056 := rfl
  have hend : (nodeBase hp n N + perNode n - hp.base) / kmallocMinSize = firstGranule n (N + 1) 0 := by
    have he : nodeBase hp n N + perNode n - hp.base = (N + 1) * perNode n := by
      unfold nodeBase
      rw [Nat.succ_mul]
      omega
    rw [he]
    rfl
  unfold initBump
  simp only [firstGranule_eq le_rfl, hend, tag_eq N (Nat.lt_of_lt_of_le hN hr.2) ownerBump (by decide)]
  refine ⟨hi.nodes, fun nid ci hci hlt => ?_, fun nid hnid => ?_, fun g hg => ?_⟩
  · have hlt' : nid < N ∨ nid = N ∧ ci < kmallocNumCaches := by omega
    have hg := (before_front hp (show baseSlabTotal + 16 ≤ perNode n by omega) hci hlt').2
    exact (hi.caches nid ci hci hlt').frame hci rfl (fun _ _ => rfl) fun g hlt => if_neg (by omega)
  · by_cases hlast : nid = N
    · subst hlast
      exact ⟨update_self .., update_self .., fun g hg1 hg2 => if_pos ⟨hg1, hg2⟩⟩
    · have hnid' : nid < N := by omega
      have hb := hi.bumps nid hnid'
      refine ⟨(update_of_ne hlast ..).trans hb.ptr, (update_of_ne hlast ..).trans hb.fin,
        fun g hg1 hg2 => (if_neg ?_).trans (hb.owner g hg1 hg2)⟩
      have hmul := Nat.mul_le_mul_right (perNode n) (show nid + 1 ≤ N from hnid')
      have hle : firstGranule n (nid + 1) 0 ≤ firstGranule n N kmallocNumCaches := by
        unfold firstGranule
        have := Nat.div_le_div_right (c := 16) hmul
        have h0 : cacheOff 0 = 0 := rfl
        rw [h0]
        omega
      omega
  · refine (if_neg (by omega)).trans (hi.invalid g ?_)
    have hle : firstGranule n N kmallocNumCaches ≤ firstGranule n (N + 1) 0 := by
      unfold firstGranule
      rw [cacheOff_end, Nat.succ_mul]
      have h0 : cacheOff 0 = 0 := rfl
      rw [h0]
      omega
    omega

theorem initNode_spec (hi : InitTo hp n h N 0) : InitTo hp n (initNode hp (perNode n) h N) (N + 1) 0 := by
  obtain ⟨hoff, hto⟩ := initCaches_spec hr hN hi kmallocNumCaches le_rfl
  show InitTo hp n (initBump hp N (nodeBase hp n N) (perNode n) ((List.range kmallocNumCaches).foldl
    (initCache hp N (nodeBase hp n N) (perNode n)) (h, 0))) (N + 1) 0
  generalize (List.range kmallocNumCaches).foldl (initCache hp N (nodeBase hp n N) (perNode n)) (h, 0) = acc
    at hoff hto
  obtain ⟨h', off⟩ := acc
  obtain rfl : off = cacheOff kmallocNumCaches := hoff
  exact initBump_spec hr hN hto

end

theorem kmallocInit_spec (hp : HeapPool) (hr : 1 ≤ n ∧ n ≤ numaMaxNodes) (mem : Bytes) :
    InitTo hp n (kmallocInit hp n mem) n 0 := by
  have hrun : ∀ N ≤ n, InitTo hp n ((List.range N).foldl (initNode hp (perNode n))
      { mem := mem, slabOwner := fun _ => ownerInvalid, activeNodes := n }) N 0 := by
    intro N
    induction N with
    | zero => exact fun _ => ⟨rfl, fun nid ci _ hlt => absurd hlt (by omega), fun nid h => absurd h (by omega), fun _ _ => rfl⟩
    | succ N ih =>
      intro hN
      grind [List.range_succ, initNode_spec]
  unfold kmallocInit
  rw [if_neg (by omega)]
  exact hrun n le_rfl

end InitSteps

end Kobalt.Mm
