/-
  Subject: RUNS OF THE KERNEL HEAP: allocations of at most 4096 bytes, releases of live pointers,
  and stores by the owners of live regions into them.

  The invariant `HeapInv` names the free list of every cache: it is linked through memory, holds
  objects of that cache only, and none that is live. A release finds the cache by the table of
  owners (`Static.owner_obj`); a pointer of a bump region finds none (`kfree_bump`), also in the last
  entry of a pool that does not end at a multiple of 16.
-/
import Mathlib.Data.List.GetD
import Mathlib.Data.List.Perm.Subperm
import Kobalt.Mm.Kmalloc

namespace Kobalt.Mm

open Function List Nat

/-! ## 1. Runs -/

/-- A live region, and the node and cache it was taken from (`none`: a bump region). -/
structure Alloc where
  ptr : Nat
  size : Nat
  origin : Option (Nat × Nat)

structure HeapRun where
  heap : Heap
  live : List Alloc

inductive HeapOp where
  | kmalloc (sz node : Nat)
  | kfree (ptr : Nat)
  | store (addr : Nat) (v : UInt8)

def heapStep (hp : HeapPool) (s : HeapRun) : HeapOp → Option Nat × HeapRun
  | .kmalloc sz node =>
    match kmallocFrom hp s.heap sz node with
    | (some (p, origin), h) => (some p, ⟨h, ⟨p, sz, origin⟩ :: s.live⟩)
    | (none, h) => (none, ⟨h, s.live⟩)
  | .kfree ptr => (none, ⟨Mm.kfree hp s.heap ptr, s.live.filter fun x => x.ptr ≠ ptr⟩)
  | .store addr v => (none, ⟨{ s.heap with mem := update s.heap.mem addr v }, s.live⟩)

/-- Sizes from 1 to 4096, releases of live pointers, stores into live regions. -/
def heapAdmits (s : HeapRun) : HeapOp → Prop
  | .kmalloc sz _ => 0 < sz ∧ sz ≤ 4096
  | .kfree ptr => ∃ x ∈ s.live, x.ptr = ptr
  | .store addr _ => ∃ x ∈ s.live, x.ptr ≤ addr ∧ addr < x.ptr + x.size

/-- Sizes that do not wrap from anywhere in the pool, releases of live pointers, stores into live
    regions. -/
def heapRoomy (hp : HeapPool) (s : HeapRun) : HeapOp → Prop
  | .kmalloc sz _ => hp.base + heapPoolSize + sz < 2 ^ 64
  | op => heapAdmits s op

/-- **The free list of a cache**: linked, without repetition, as long as the count says, and of the
    cache's own objects. -/
structure FreeList (h : Heap) (nid ci : Nat) (l : List Nat) : Prop where
  linked : Linked h.mem (h.caches nid ci).freelist l
  nodup : l.Nodup
  count : l.length = (h.caches nid ci).freeCount
  own : ∀ a ∈ l, a ∈ objects (h.caches nid ci).cbase (h.caches nid ci).objSize (h.caches nid ci).total

/-- **The pool is divided** between the live regions and the free objects, and a live object that is
    released is the next its cache hands out. -/
structure Partition (hp : HeapPool) (n : Nat) (s : HeapRun) : Prop where
  inside : ∀ x ∈ s.live, hp.base ≤ x.ptr ∧ x.ptr + x.size ≤ hp.base + heapPoolSize
  disjoint : s.live.Pairwise fun x y => x.ptr + x.size ≤ y.ptr ∨ y.ptr + y.size ≤ x.ptr
  free : ∀ nid < n, ∀ ci < kmallocNumCaches, ∃ l, FreeList s.heap nid ci l ∧
    ∀ x ∈ s.live, ∀ a ∈ l, x.ptr + x.size ≤ a ∨ a + (s.heap.caches nid ci).objSize ≤ x.ptr
  back : ∀ x ∈ s.live, ∀ nid ci, x.origin = some (nid, ci) →
    (allocFromNode hp (kfree hp s.heap x.ptr) ci nid).1 = some x.ptr

/-! ## 2. What never changes -/

/-- **The layout**: sizes, bounds and the table of owners. -/
structure Static (hp : HeapPool) (n : Nat) (h : Heap) : Prop where
  range : 1 ≤ n ∧ n ≤ numaMaxNodes
  nodes : h.activeNodes = n
  cache : ∀ nid < n, ∀ ci < kmallocNumCaches, (h.caches nid ci).objSize = cacheSize ci ∧
    (h.caches nid ci).total = baseQuota ci ∧ (h.caches nid ci).cbase = cacheBase hp n nid ci
  owner : ∀ nid < n, ∀ ci < kmallocNumCaches, ∀ g, firstGranule n nid ci ≤ g →
    g < firstGranule n nid (ci + 1) → h.slabOwner g = nid * 16 + ci
  bumpOwner : ∀ nid < n, ∀ g, firstGranule n nid kmallocNumCaches ≤ g → g < firstGranule n (nid + 1) 0 →
    h.slabOwner g = nid * 16 + ownerBump
  invalid : ∀ g, firstGranule n n 0 ≤ g → h.slabOwner g = ownerInvalid
  fin : ∀ nid < n, h.bumpEnd nid = nodeBase hp n nid + perNode n

section Facts

variable {hp : HeapPool} {n nid ci a : Nat} {h : Heap}

theorem InitTo.static (hr : 1 ≤ n ∧ n ≤ numaMaxNodes) (hi : InitTo hp n h n 0) : Static hp n h := by
  have hc : ∀ nid < n, ∀ ci < kmallocNumCaches, CacheInit hp n h nid ci := fun nid hn ci hci =>
    hi.caches nid ci hci (.inl hn)
  refine ⟨hr, hi.nodes, fun nid hn ci hci => ?_, fun nid hn ci hci => (hc nid hn ci hci).owner,
    fun nid hn => (hi.bumps nid hn).owner, hi.invalid, fun nid hn => (hi.bumps nid hn).fin⟩
  rw [(hc nid hn ci hci).cache]
  exact ⟨rfl, rfl, rfl⟩

/-- A change of one cache that keeps its size, total and base keeps the layout. -/
theorem Static.setCache (hs : Static hp n h) {c : KmemCache} {m : Bytes} (ho : c.objSize = (h.caches nid ci).objSize)
    (ht : c.total = (h.caches nid ci).total) (hb : c.cbase = (h.caches nid ci).cbase) :
    Static hp n { h.setCache nid ci c with mem := m } := by
  refine ⟨hs.range, hs.nodes, fun nid' hn ci' hci => ?_, hs.owner, hs.bumpOwner, hs.invalid, hs.fin⟩
  dsimp only
  rw [h.setCache_caches]
  split
  · next he =>
    rw [ho, ht, hb, ← he.1, ← he.2]
    exact hs.cache nid' hn ci' hci
  · exact hs.cache nid' hn ci' hci

/-- **The table knows every object**: its first byte is in an entry of its own cache. -/
theorem Static.owner_obj (hs : Static hp n h) (hn : nid < n) (hci : ci < kmallocNumCaches)
    (ha : IsObj hp n nid ci a) : h.slabOwner ((a - hp.base) / kmallocMinSize) = nid * 16 + ci := by
  obtain ⟨hs16, hsm, -, -, hom, -⟩ := cache_facts ci hci
  obtain ⟨j, hj, rfl⟩ := mem_objects.1 ha
  have hk : j * cacheSize ci % 16 = 0 := by rw [mul_mod, hsm, mul_zero, zero_mod]
  have hend : j * cacheSize ci + cacheSize ci ≤ cacheSize ci * baseQuota ci := by
    rw [← succ_mul, mul_comm (cacheSize ci)]
    exact mul_le_mul_right _ hj
  have hoff : cacheOff (ci + 1) = cacheOff ci + cacheSize ci * baseQuota ci := rfl
  have hgran : (cacheBase hp n nid ci + j * cacheSize ci - hp.base) / 16 =
      nid * perNode n / 16 + (cacheOff ci + j * cacheSize ci) / 16 := by
    rw [← granule_add _ (show (cacheOff ci + j * cacheSize ci) % 16 = 0 by omega)]
    unfold cacheBase nodeBase
    congr 1
    omega
  grind [hs.owner, firstGranule]

theorem tag_parts : ∀ nid < 8, ∀ c < 16, (nid * 16 + c) >>> 4 = nid ∧ (nid * 16 + c) &&& 0xF = c := by decide

theorem length_lt_quota {l : List Nat} (hl : l.Nodup) (hown : ∀ b ∈ l, IsObj hp n nid ci b)
    (ha : IsObj hp n nid ci a) (hna : a ∉ l) : l.length < baseQuota ci := by
  have hsub : (a :: l) ⊆ objects (cacheBase hp n nid ci) (cacheSize ci) (baseQuota ci) := by
    intro b hb
    rcases mem_cons.1 hb with rfl | hb
    · exact ha
    · exact hown b hb
  have := ((nodup_cons.2 ⟨hna, hl⟩).subperm hsub).length_le
  rw [objects_length] at this
  exact this

theorem kfree_obj (hs : Static hp n h) (hn : nid < n) (hci : ci < kmallocNumCaches) (ha : IsObj hp n nid ci a)
    (hfree : (h.caches nid ci).freeCount < baseQuota ci) :
    kfree hp h a = { h.setCache nid ci { h.caches nid ci with
        freelist := a, freeCount := (h.caches nid ci).freeCount + 1 } with
      mem := putLE h.mem a 8 (h.caches nid ci).freelist } := by
  obtain ⟨hs16, ha1, ha2⟩ := ha.inside hs.range hn hci
  have hb1 := ha.bounds.1
  have hpos := hp.pos
  have hfits := hp.fits
  have hpool : heapPoolSize = 16777216 := rfl
  obtain ⟨hshift, hmask⟩ := tag_parts nid (lt_of_lt_of_le hn hs.range.2) ci (lt_trans hci (by decide))
  obtain ⟨hobj, htotal, hcbase⟩ := hs.cache nid hn ci hci
  have h8 := hs.range.2
  have hnc : kmallocNumCaches = 9 := rfl
  have hmax : numaMaxNodes = 8 := rfl
  have hinv : ownerInvalid = 255 := rfl
  have hbump : ownerBump = 15 := rfl
  have hmod : (a + (2 ^ 64 - cacheBase hp n nid ci)) % 2 ^ 64 % cacheSize ci = 0 := by
    obtain ⟨j, hj, rfl⟩ := mem_objects.1 ha
    have he : cacheBase hp n nid ci + j * cacheSize ci + (2 ^ 64 - cacheBase hp n nid ci) =
        j * cacheSize ci + 2 ^ 64 := by omega
    rw [he, add_mod_right, mod_eq_of_lt (show j * cacheSize ci < 2 ^ 64 by omega), mul_mod_left]
  unfold kfree
  rw [if_neg (by omega), if_neg (by omega)]
  simp only [hs.owner_obj hn hci ha, hshift, hmask, hs.nodes, hcbase, hobj, htotal, hmod]
  grind

/-- **`kfree` of a pointer into a bump region** does nothing. The entry of the table belongs to the
    bump region, or, for the last bytes of a pool that does not end at a multiple of 16, to the
    first cache of the next node, of which it is not an object. -/
theorem kfree_bump (hs : Static hp n h) (hn : nid < n)
    (ha1 : nodeBase hp n nid + baseSlabTotal ≤ a) (ha2 : a < nodeBase hp n nid + perNode n)
    (ha64 : a % 64 = 0) : kfree hp h a = h := by
  have hpos := hp.pos
  have hfits := hp.fits
  have hal := hp.aligned
  have hpool : heapPoolSize = 16777216 := rfl
  have hslab : baseSlabTotal = 557056 := rfl
  have hmax : numaMaxNodes = 8 := rfl
  have h8 := hs.range.2
  obtain ⟨hb1, hb2⟩ := nodeBase_end hp hn
  have hper := le_perNode hs.range
  have hnb : nodeBase hp n nid = hp.base + nid * perNode n := rfl
  have hnb' : nodeBase hp n (nid + 1) = hp.base + nid * perNode n + perNode n := by
    unfold nodeBase
    rw [succ_mul]
    omega
  have hstart : firstGranule n nid kmallocNumCaches ≤ (a - hp.base) / kmallocMinSize := by
    unfold firstGranule
    rw [cacheOff_end]
    show _ ≤ (a - hp.base) / 16
    omega
  have hend : firstGranule n (nid + 1) 0 = (nid * perNode n + perNode n) / 16 := by
    unfold firstGranule
    rw [succ_mul]
    rfl
  unfold kfree
  rw [if_neg (by omega), if_neg (by omega)]
  simp only
  by_cases hg : (a - hp.base) / kmallocMinSize < firstGranule n (nid + 1) 0
  · have hmask := (tag_parts nid (lt_of_lt_of_le hn h8) ownerBump (by decide)).2
    rw [hs.bumpOwner nid hn _ hstart hg, hmask, if_pos (.inr (.inl rfl))]
  -- The pointer is in the entry in which the pool ends.
  have hlast : (a - hp.base) / kmallocMinSize = firstGranule n (nid + 1) 0 := by
    change ¬(a - hp.base) / 16 < _ at hg
    show (a - hp.base) / 16 = _
    omega
  by_cases hnext : nid + 1 < n
  · have hown := hs.owner (nid + 1) hnext 0 (by decide) (firstGranule n (nid + 1) 0) le_rfl (by
      unfold firstGranule
      have hoff : cacheOff 1 = 16384 := rfl
      grind [cacheOff])
    obtain ⟨hshift, hmask⟩ := tag_parts (nid + 1) (lt_of_lt_of_le hnext h8) 0 (by decide)
    have hmis : (a + (2 ^ 64 - cacheBase hp n (nid + 1) 0)) % 2 ^ 64 % cacheSize 0 ≠ 0 := by
      have hcb : cacheBase hp n (nid + 1) 0 = nodeBase hp n (nid + 1) := rfl
      have hsz : cacheSize 0 = 16 := rfl
      rw [hcb, hsz, hnb']
      change (a - hp.base) / 16 = _ at hlast
      rw [hend] at hlast
      generalize nid * perNode n = x at *
      omega
    obtain ⟨hobj, -, hcbase⟩ := hs.cache _ hnext 0 (by decide)
    rw [hlast, hown, hshift, hmask, hcbase, hobj, if_pos hmis]
    split <;> rfl
  · have hn1 : nid + 1 = n := by omega
    rw [hlast, hn1, hs.invalid _ le_rfl, if_pos (.inl rfl)]

end Facts

/-! ## 3. The invariant -/

/-- The free lists by node and cache. -/
abbrev FreeLists := Nat → Nat → List Nat

def FreeLists.set (fl : FreeLists) (nid ci : Nat) (l : List Nat) : FreeLists := fun i j =>
  if i = nid ∧ j = ci then l else fl i j

/-- **A live region**: an object of its cache that is not free, or a piece of a bump region. -/
inductive LiveAt (hp : HeapPool) (n : Nat) (fl : FreeLists) (h : Heap) (x : Alloc) : Prop where
  | slab (nid ci : Nat) (ho : x.origin = some (nid, ci)) (hn : nid < n) (hci : ci < kmallocNumCaches)
      (hobj : IsObj hp n nid ci x.ptr) (hsz : x.size ≤ cacheSize ci) (hfree : x.ptr ∉ fl nid ci)
  | bump (nid : Nat) (ho : x.origin = none) (hn : nid < n) (hlow : nodeBase hp n nid + baseSlabTotal ≤ x.ptr)
      (hhigh : x.ptr + x.size ≤ h.bumpPtr nid) (h64 : x.ptr % 64 = 0)

/-- **The invariant of the heap.** -/
structure HeapInv (hp : HeapPool) (n : Nat) (fl : FreeLists) (s : HeapRun) : Prop where
  static : Static hp n s.heap
  linked : ∀ nid < n, ∀ ci < kmallocNumCaches, Linked s.heap.mem (s.heap.caches nid ci).freelist (fl nid ci)
  nodup : ∀ nid < n, ∀ ci < kmallocNumCaches, (fl nid ci).Nodup
  count : ∀ nid < n, ∀ ci < kmallocNumCaches, (fl nid ci).length = (s.heap.caches nid ci).freeCount
  own : ∀ nid < n, ∀ ci < kmallocNumCaches, ∀ a ∈ fl nid ci, IsObj hp n nid ci a
  bump : ∀ nid < n, nodeBase hp n nid + baseSlabTotal ≤ s.heap.bumpPtr nid ∧
    s.heap.bumpPtr nid ≤ nodeBase hp n nid + perNode n
  live : ∀ x ∈ s.live, LiveAt hp n fl s.heap x
  size : ∀ x ∈ s.live, 0 < x.size
  disjoint : s.live.Pairwise fun x y => x.ptr + x.size ≤ y.ptr ∨ y.ptr + y.size ≤ x.ptr

section Inv

variable {hp : HeapPool} {n : Nat} {fl : FreeLists} {s : HeapRun} {nid ci : Nat} {x : Alloc}

theorem heapInv_start (hr : 1 ≤ n ∧ n ≤ numaMaxNodes) (mem : Bytes) :
    HeapInv hp n (fun nid ci => objects (cacheBase hp n nid ci) (cacheSize ci) (baseQuota ci))
      ⟨kmallocInit hp n mem, []⟩ := by
  have hi := kmallocInit_spec hp hr mem
  have hc : ∀ nid < n, ∀ ci < kmallocNumCaches, CacheInit hp n (kmallocInit hp n mem) nid ci :=
    fun nid hn ci hci => hi.caches nid ci hci (.inl hn)
  have hper := le_perNode hr
  refine ⟨hi.static hr, fun nid hn ci hci => ?_, fun nid hn ci hci => ?_, fun nid hn ci hci => ?_,
    fun nid hn ci hci a ha => ha, fun nid hn => ?_, fun x hx => absurd hx not_mem_nil,
    fun x hx => absurd hx not_mem_nil, List.Pairwise.nil⟩
  · rw [(hc nid hn ci hci).cache]
    exact (hc nid hn ci hci).linked
  · grind [cache_facts, objects_nodup]
  · rw [(hc nid hn ci hci).cache, objects_length]
  · rw [(hi.bumps nid hn).ptr]
    grind

theorem LiveAt.pool (hx : LiveAt hp n fl s.heap x) (hinv : HeapInv hp n fl s) :
    ∃ k < n, nodeBase hp n k ≤ x.ptr ∧ x.ptr + x.size ≤ s.heap.bumpPtr k := by
  cases hx with
  | slab nid ci ho hn hci hobj hsz hfree =>
    obtain ⟨hb1, hb2⟩ := hobj.bounds
    have hfit := (cache_facts ci hci).2.2.2.2.2
    have hb := (hinv.bump nid hn).1
    grind [cacheBase]
  | bump nid ho hn hlow hhigh h64 => exact ⟨nid, hn, by omega, hhigh⟩

theorem LiveAt.apart_free (hx : LiveAt hp n fl s.heap x) (hinv : HeapInv hp n fl s) (hn : nid < n) (hci : ci < kmallocNumCaches) {a : Nat} (ha : a ∈ fl nid ci) :
    x.ptr + x.size ≤ a ∨ a + cacheSize ci ≤ x.ptr := by
  have hper := le_perNode hinv.static.range
  have hslab : baseSlabTotal = 557056 := rfl
  have hobj := hinv.own nid hn ci hci a ha
  cases hx with
  | slab nid' ci' ho hn' hci' hobj' hsz hfree =>
    have hne : nid' = nid → ci' = ci → x.ptr ≠ a := by
      rintro rfl rfl rfl
      exact hfree ha
    have := hobj'.apart (by omega) hobj hci' hci hne
    omega
  | bump nid' ho hn' hlow hhigh h64 =>
    obtain ⟨hb1, hb2⟩ := hobj.bounds
    have hfit := (cache_facts ci hci).2.2.2.2.2
    have hb := (hinv.bump nid' hn').2
    have hbase : cacheBase hp n nid ci = nodeBase hp n nid + cacheOff ci := rfl
    rcases nodes_apart hp n nid nid' with rfl | h | h <;> omega

theorem HeapInv.flValid (hinv : HeapInv hp n fl s) (hn : nid < n) (hci : ci < kmallocNumCaches) {a : Nat}
    (ha : IsObj hp n nid ci a) : flValid hp a = true := by
  have hin := ha.inside hinv.static.range hn hci
  unfold Mm.flValid
  rw [Bool.and_eq_true, decide_eq_true_iff, decide_eq_true_iff]
  exact ⟨hin.2.1, by omega⟩

theorem HeapInv.partition (hinv : HeapInv hp n fl s) : Partition hp n s := by
  refine ⟨fun x hx => ?_, hinv.disjoint, fun nid hn ci hci => ⟨fl nid ci, ⟨hinv.linked nid hn ci hci,
    hinv.nodup nid hn ci hci, hinv.count nid hn ci hci, fun a ha => ?_⟩, fun x hx a ha => ?_⟩,
    fun x hx nid ci ho => ?_⟩
  · obtain ⟨k, hk, hlow, hhigh⟩ := (hinv.live x hx).pool hinv
    have hb := (hinv.bump k hk).2
    grind [nodeBase_end]
  · obtain ⟨hobj, htotal, hcbase⟩ := hinv.static.cache nid hn ci hci
    rw [hobj, htotal, hcbase]
    exact hinv.own nid hn ci hci a ha
  · rw [(hinv.static.cache nid hn ci hci).1]
    exact (hinv.live x hx).apart_free hinv hn hci ha
  · cases hinv.live x hx with
    | bump nid' ho' => exact absurd (ho'.symm.trans ho) (by simp)
    | slab nid' ci' ho' hn hci hobj hsz hfree =>
      obtain ⟨rfl, rfl⟩ := Prod.mk.inj (Option.some.inj (ho'.symm.trans ho))
      have hlt := length_lt_quota (hinv.nodup nid' hn ci' hci) (hinv.own nid' hn ci' hci) hobj hfree
      rw [hinv.count nid' hn ci' hci] at hlt
      rw [kfree_obj hinv.static hn hci hobj hlt]
      have hpos := hp.pos
      have hin := hobj.inside hinv.static.range hn hci
      have hval := hinv.flValid hn hci hobj
      unfold allocFromNode
      simp only [Heap.setCache_caches, and_self, if_true, hval]
      rw [if_neg (by omega)]
      rfl

end Inv

/-! ## 4. One operation -/

section Steps

variable {hp : HeapPool} {n : Nat} {fl : FreeLists} {s : HeapRun} {nid ci p sz : Nat}

theorem LiveAt.mono {fl' : FreeLists} {h h' : Heap} {x : Alloc} (hx : LiveAt hp n fl h x)
    (hfl : ∀ i j, ∀ a ∈ fl' i j, a ∈ fl i j) (hb : ∀ i < n, h.bumpPtr i ≤ h'.bumpPtr i) :
    LiveAt hp n fl' h' x := by
  cases hx with
  | slab i j ho hn hci hobj hsz hfree =>
    exact .slab i j ho hn hci hobj hsz fun ha => hfree (hfl i j _ ha)
  | bump i ho hn hlow hhigh h64 => exact .bump i ho hn hlow (hhigh.trans (hb i hn)) h64

section

variable (hinv : HeapInv hp n fl s)
include hinv

theorem allocFromNode_spec (hn : nid < n) (hci : ci < kmallocNumCaches) :
    allocFromNode hp s.heap ci nid = (none, s.heap) ∨ ∃ p t, fl nid ci = p :: t ∧
      Linked s.heap.mem (leAt s.heap.mem p 8) t ∧
      allocFromNode hp s.heap ci nid = (some p, s.heap.setCache nid ci { s.heap.caches nid ci with
        freelist := leAt s.heap.mem p 8, freeCount := (s.heap.caches nid ci).freeCount - 1 }) := by
  unfold allocFromNode
  simp only
  by_cases h0 : (s.heap.caches nid ci).freelist = 0
  · exact .inl (if_pos h0)
  · obtain ⟨t, hl, ht⟩ := (hinv.linked nid hn ci hci).tail h0
    have hval := hinv.flValid hn hci (hinv.own nid hn ci hci _ (hl ▸ mem_cons_self))
    grind

theorem HeapInv.pop (hn : nid < n) (hci : ci < kmallocNumCaches) {t : List Nat} (hl : fl nid ci = p :: t)
    (ht : Linked s.heap.mem (leAt s.heap.mem p 8) t) (hsz0 : 0 < sz) (hsz : sz ≤ cacheSize ci) :
    HeapInv hp n (fl.set nid ci t) ⟨s.heap.setCache nid ci { s.heap.caches nid ci with
        freelist := leAt s.heap.mem p 8, freeCount := (s.heap.caches nid ci).freeCount - 1 },
        ⟨p, sz, some (nid, ci)⟩ :: s.live⟩ := by
  have hsub : ∀ i j, ∀ a ∈ fl.set nid ci t i j, a ∈ fl i j := by
    intro i j a ha
    unfold FreeLists.set at ha
    split at ha
    · next h => grind
    · exact ha
  have hmem : p ∈ fl nid ci := hl ▸ mem_cons_self
  have hnd := hinv.nodup nid hn ci hci
  rw [hl] at hnd
  obtain ⟨hpt, htnd⟩ := nodup_cons.1 hnd
  have hset : fl.set nid ci t nid ci = t := if_pos ⟨rfl, rfl⟩
  refine ⟨hinv.static.setCache rfl rfl rfl, fun i hi j hj => ?_, fun i hi j hj => ?_, fun i hi j hj => ?_,
    fun i hi j hj a ha => hinv.own i hi j hj a (hsub i j a ha), hinv.bump, ?_, ?_, ?_⟩
  · rw [Heap.setCache_caches]
    unfold FreeLists.set
    split
    · exact ht
    · exact hinv.linked i hi j hj
  · grind [FreeLists.set, hinv.nodup]
  · grind [Heap.setCache_caches, FreeLists.set, hinv.count, length_cons]
  · refine forall_mem_cons.2 ⟨?_, fun x hx => (hinv.live x hx).mono hsub fun i _ => le_rfl⟩
    exact .slab nid ci rfl hn hci (hinv.own nid hn ci hci p hmem) hsz (by rw [hset]; exact hpt)
  · exact forall_mem_cons.2 ⟨hsz0, hinv.size⟩
  · refine pairwise_cons.2 ⟨fun y hy => ?_, hinv.disjoint⟩
    have := (hinv.live y hy).apart_free hinv hn hci hmem
    grind

theorem bumpAlloc_spec (hn : nid < n) (hsz : hp.base + heapPoolSize + sz < 2 ^ 64) :
    bumpAlloc s.heap sz nid = (none, s.heap) ∨ ∃ a, a % 64 = 0 ∧ s.heap.bumpPtr nid ≤ a ∧
      a + sz ≤ nodeBase hp n nid + perNode n ∧
      bumpAlloc s.heap sz nid = (some a, { s.heap with bumpPtr := update s.heap.bumpPtr nid (a + sz) }) := by
  obtain ⟨hb1, hb2⟩ := hinv.bump nid hn
  obtain ⟨he1, he2⟩ := nodeBase_end hp hn
  have hal := hp.aligned
  have hpool : heapPoolSize = 16777216 := rfl
  generalize ha : (s.heap.bumpPtr nid + 63) % 2 ^ 64 / 64 * 64 = a
  have hmod : (s.heap.bumpPtr nid + 63) % 2 ^ 64 = s.heap.bumpPtr nid + 63 := mod_eq_of_lt (by omega)
  rw [hmod] at ha
  have hwrap : (a + sz) % 2 ^ 64 = a + sz := mod_eq_of_lt (by omega)
  unfold bumpAlloc
  simp only
  rw [hmod, ha, hwrap, hinv.static.fin nid hn]
  grind

theorem HeapInv.grow (hn : nid < n) (h64 : p % 64 = 0)
    (hlow : s.heap.bumpPtr nid ≤ p) (hhigh : p + sz ≤ nodeBase hp n nid + perNode n) (hsz0 : 0 < sz) :
    HeapInv hp n fl
      ⟨{ s.heap with bumpPtr := update s.heap.bumpPtr nid (p + sz) }, ⟨p, sz, none⟩ :: s.live⟩ := by
  have hb := hinv.bump nid hn
  have hmono : ∀ i < n, s.heap.bumpPtr i ≤ update s.heap.bumpPtr nid (p + sz) i := by
    intro i _
    by_cases h : i = nid
    · subst h
      rw [update_self]
      omega
    · rw [update_of_ne h]
  have hs := hinv.static
  refine ⟨⟨hs.range, hs.nodes, hs.cache, hs.owner, hs.bumpOwner, hs.invalid, hs.fin⟩, hinv.linked, hinv.nodup,
    hinv.count, hinv.own, fun i hi => ?_, ?_, ?_, ?_⟩
  · show _ ≤ update s.heap.bumpPtr nid (p + sz) i ∧ update s.heap.bumpPtr nid (p + sz) i ≤ _
    by_cases h : i = nid
    · subst h
      rw [update_self]
      omega
    · rw [update_of_ne h]
      exact hinv.bump i hi
  · refine forall_mem_cons.2 ⟨?_, fun x hx => (hinv.live x hx).mono (fun _ _ _ h => h) hmono⟩
    exact .bump nid rfl hn (by dsimp only; omega) (by simp only [update_self]; exact le_rfl) h64
  · exact forall_mem_cons.2 ⟨hsz0, hinv.size⟩
  · refine pairwise_cons.2 ⟨fun y hy => ?_, hinv.disjoint⟩
    obtain ⟨k, hk, hk1, hk2⟩ := (hinv.live y hy).pool hinv
    have hbk := hinv.bump k hk
    show p + sz ≤ y.ptr ∨ y.ptr + y.size ≤ p
    rcases nodes_apart hp n k nid with rfl | h | h <;> omega

theorem HeapInv.filter (q : Alloc → Bool) : HeapInv hp n fl ⟨s.heap, s.live.filter q⟩ :=
  ⟨hinv.static, hinv.linked, hinv.nodup, hinv.count, hinv.own, hinv.bump,
    fun x hx => hinv.live x (mem_filter.1 hx).1, fun x hx => hinv.size x (mem_filter.1 hx).1,
    hinv.disjoint.filter q⟩

theorem HeapInv.push (hn : nid < n)
    (hci : ci < kmallocNumCaches) (hobj : IsObj hp n nid ci p) (hfree : p ∉ fl nid ci)
    (hlive : ∀ x ∈ s.live, x.ptr ≠ p) :
    HeapInv hp n (fl.set nid ci (p :: fl nid ci)) ⟨kfree hp s.heap p, s.live⟩ := by
  have hlt := length_lt_quota (hinv.nodup nid hn ci hci) (hinv.own nid hn ci hci) hobj hfree
  rw [hinv.count nid hn ci hci] at hlt
  rw [kfree_obj hinv.static hn hci hobj hlt]
  have hper := le_perNode hinv.static.range
  have hin := hobj.inside hinv.static.range hn hci
  have hslab : baseSlabTotal = 557056 := rfl
  have hpos := hp.pos
  have hfits := hp.fits
  have hpool : heapPoolSize = 16777216 := rfl
  -- No link word of a free object meets the one that is written.
  have hword : ∀ i < n, ∀ j < kmallocNumCaches, ∀ b ∈ fl i j, b + 8 ≤ p ∨ p + 8 ≤ b := by
    intro i hi j hj b hb
    have hsj := (cache_facts j hj).1
    have hne : i = nid → j = ci → b ≠ p := by
      rintro rfl rfl rfl
      exact hfree hb
    have := (hinv.own i hi j hj b hb).apart (by omega) hobj hj hci hne
    omega
  have hhead : (s.heap.caches nid ci).freelist < 256 ^ 8 := by
    by_cases h0 : (s.heap.caches nid ci).freelist = 0
    · rw [h0]
      exact Nat.pow_pos (by decide)
    · obtain ⟨t, hl, -⟩ := (hinv.linked nid hn ci hci).tail h0
      have hb := (hinv.own nid hn ci hci _ (hl ▸ mem_cons_self)).inside hinv.static.range hn hci
      omega
  refine ⟨hinv.static.setCache rfl rfl rfl,
    fun i hi j hj => ?_, fun i hi j hj => ?_, fun i hi j hj => ?_, fun i hi j hj => ?_, hinv.bump, ?_,
    hinv.size, hinv.disjoint⟩
  · show Linked (putLE s.heap.mem p 8 _) ((s.heap.setCache nid ci _).caches i j).freelist _
    rw [Heap.setCache_caches]
    unfold FreeLists.set
    split
    · exact (hinv.linked nid hn ci hci).push (by omega) hhead (hword nid hn ci hci)
    · exact (hinv.linked i hi j hj).congr fun b hb => leAt_putLE_of_disjoint (hword i hi j hj b hb)
  · grind [FreeLists.set, hinv.nodup]
  · grind [Heap.setCache_caches, FreeLists.set, hinv.count]
  · grind [FreeLists.set, hinv.own]
  · intro x hx
    cases hinv.live x hx with
    | slab i j ho hi hj hobj' hsz hfree' =>
      refine .slab i j ho hi hj hobj' hsz ?_
      grind [FreeLists.set]
    | bump i ho hi hlow hhigh h64 => exact .bump i ho hi hlow hhigh h64

theorem HeapInv.store {x : Alloc} (hx : x ∈ s.live) {addr : Nat} (ha1 : x.ptr ≤ addr) (ha2 : addr < x.ptr + x.size) (v : UInt8) :
    HeapInv hp n fl ⟨{ s.heap with mem := update s.heap.mem addr v }, s.live⟩ := by
  have hs := hinv.static
  refine ⟨⟨hs.range, hs.nodes, hs.cache, hs.owner, hs.bumpOwner, hs.invalid, hs.fin⟩, fun i hi j hj => ?_,
    hinv.nodup, hinv.count, hinv.own, hinv.bump, fun y hy => (hinv.live y hy).mono (fun _ _ _ h => h) fun _ _ => le_rfl, hinv.size,
    hinv.disjoint⟩
  refine (hinv.linked i hi j hj).congr fun a ha => leAt_congr fun z hz1 hz2 => ?_
  have := (hinv.live x hx).apart_free hinv hi hj ha
  grind [cache_facts]

omit hinv in
/-- The first node that has something, if a node without anything changes nothing. -/
theorem firstNode_spec (f : Heap → Nat → Option Nat × Heap) (h : Heap) :
    ∀ order : List Nat, (∀ nid ∈ order, f h nid = (none, h) ∨ ∃ p h', f h nid = (some p, h')) →
      firstNode f h order = (none, h) ∨ ∃ nid ∈ order, ∃ p h', f h nid = (some p, h') ∧
        firstNode f h order = (some (nid, p), h') := by
  intro order
  induction order with
  | nil => exact fun _ => .inl rfl
  | cons nid rest ih =>
    intro hall
    grind [firstNode]

omit hinv in
theorem nodeOrder_lt {node : Nat} (hn : node < n) : ∀ i ∈ nodeOrder n node, i < n := by
  intro i hi
  rcases mem_cons.1 hi with rfl | hi
  · exact hn
  grind

omit hinv in
theorem cidxFor_spec (hlt : cidxFor sz < kmallocNumCaches) : sz ≤ cacheSize (cidxFor sz) := by
  have hget := findIdx_getElem (w := hlt)
  unfold cacheSize
  rw [getD_eq_getElem _ _ hlt]
  exact of_decide_eq_true hget

/-- **`kmalloc_node`**: nothing, the head of a free list, or a piece behind a bump pointer. -/
theorem kmallocFrom_cases (hsz : hp.base + heapPoolSize + sz < 2 ^ 64) (node : Nat) :
    kmallocFrom hp s.heap sz node = (none, s.heap) ∨ 0 < sz ∧
      ((cidxFor sz < kmallocNumCaches ∧ ∃ i < n, ∃ q t, fl i (cidxFor sz) = q :: t ∧
        Linked s.heap.mem (leAt s.heap.mem q 8) t ∧ kmallocFrom hp s.heap sz node =
          (some (q, some (i, cidxFor sz)), s.heap.setCache i (cidxFor sz) { s.heap.caches i (cidxFor sz) with
            freelist := leAt s.heap.mem q 8, freeCount := (s.heap.caches i (cidxFor sz)).freeCount - 1 })) ∨
      ∃ i < n, ∃ a, a % 64 = 0 ∧ s.heap.bumpPtr i ≤ a ∧ a + sz ≤ nodeBase hp n i + perNode n ∧
        kmallocFrom hp s.heap sz node =
          (some (a, none), { s.heap with bumpPtr := update s.heap.bumpPtr i (a + sz) })) := by
  unfold kmallocFrom
  by_cases hsz0 : sz = 0
  · rw [if_pos hsz0]
    exact .inl rfl
  generalize hnd : (if node ≥ n then 0 else node) = nd
  have hndn : nd < n := by
    have := hinv.static.range.1
    rw [← hnd]
    split <;> omega
  have horder := nodeOrder_lt hndn
  rw [if_neg hsz0]
  simp only [hinv.static.nodes, hnd]
  have hslab : (if cidxFor sz < kmallocNumCaches then
      firstNode (fun h nid => allocFromNode hp h (cidxFor sz) nid) s.heap (nodeOrder n nd) else (none, s.heap)) =
        (none, s.heap) ∨ cidxFor sz < kmallocNumCaches ∧ ∃ i < n, ∃ q h',
          allocFromNode hp s.heap (cidxFor sz) i = (some q, h') ∧
          firstNode (fun h nid => allocFromNode hp h (cidxFor sz) nid) s.heap (nodeOrder n nd) = (some (i, q), h') := by
    by_cases hci : cidxFor sz < kmallocNumCaches
    · rw [if_pos hci]
      have := firstNode_spec (fun h nid => allocFromNode hp h (cidxFor sz) nid) s.heap
        (nodeOrder n nd) fun i hi => by grind [allocFromNode_spec]
      grind
    · rw [if_neg hci]
      exact .inl rfl
  rcases hslab with hr | ⟨hci, i, hi, q, h', ha, hr⟩
  · rw [hr]
    simp only
    have hbump := firstNode_spec (fun h nid => bumpAlloc h sz nid) s.heap
      (nodeOrder n nd) fun i hi => by grind [bumpAlloc_spec]
    rcases hbump with hb | ⟨i, hi, p, h', ha, hb⟩
    · rw [hb]
      exact .inl rfl
    · rw [hb]
      rcases bumpAlloc_spec hinv (horder i hi) hsz with he | ⟨a, h64, hlow, hhigh, he⟩
      · exact absurd (ha.symm.trans he) (by simp)
      · obtain ⟨hp', rfl⟩ := Prod.mk.inj (ha.symm.trans he)
        obtain rfl := Option.some.inj hp'
        exact .inr ⟨by omega, .inr ⟨i, horder i hi, p, h64, hlow, hhigh, by simp only [hinv.static.nodes]⟩⟩
  · rw [if_pos hci, hr]
    rcases allocFromNode_spec hinv hi hci with he | ⟨q', t, hl, ht, he⟩
    · exact absurd (ha.symm.trans he) (by simp)
    · obtain ⟨hp', rfl⟩ := Prod.mk.inj (ha.symm.trans he)
      obtain rfl := Option.some.inj hp'
      exact .inr ⟨by omega, .inl ⟨hci, i, hi, q, t, hl, ht, rfl⟩⟩

theorem kmallocFrom_inv (hsz : hp.base + heapPoolSize + sz < 2 ^ 64) (node : Nat) :
    ∃ fl', HeapInv hp n fl' (heapStep hp s (.kmalloc sz node)).2 := by
  show ∃ fl', HeapInv hp n fl' (match kmallocFrom hp s.heap sz node with
    | (some (p, origin), h) => (some p, (⟨h, ⟨p, sz, origin⟩ :: s.live⟩ : HeapRun))
    | (none, h) => (none, ⟨h, s.live⟩)).2
  rcases kmallocFrom_cases hinv hsz node with
    he | ⟨h0, ⟨hci, i, hi, q, t, hl, ht, he⟩ | ⟨i, hi, a, h64, hlow, hhigh, he⟩⟩
  · rw [he]
    exact ⟨fl, hinv⟩
  · rw [he]
    exact ⟨_, hinv.pop hi hci hl ht h0 (cidxFor_spec hci)⟩
  · rw [he]
    exact ⟨fl, hinv.grow hi h64 hlow hhigh h0⟩

theorem kfree_inv {x : Alloc} (hx : x ∈ s.live) : ∃ fl', HeapInv hp n fl' (heapStep hp s (.kfree x.ptr)).2 := by
  have hrest := hinv.filter fun y => y.ptr ≠ x.ptr
  cases hinv.live x hx with
  | slab nid ci ho hn hci hobj hsz hfree =>
    exact ⟨_, hrest.push hn hci hobj hfree fun y hy => of_decide_eq_true (mem_filter.1 hy).2⟩
  | bump nid ho hn hlow hhigh h64 =>
    have hb := (hinv.bump nid hn).2
    have hs := hinv.size x hx
    refine ⟨fl, ?_⟩
    show HeapInv hp n fl ⟨kfree hp s.heap x.ptr, _⟩
    grind [kfree_bump, hinv.static]

theorem heapStep_inv {op : HeapOp}
    (hop : heapRoomy hp s op) : ∃ fl', HeapInv hp n fl' (heapStep hp s op).2 := by
  cases op with
  | kmalloc sz node => exact kmallocFrom_inv hinv hop node
  | kfree ptr =>
    obtain ⟨x, hx, rfl⟩ := hop
    exact kfree_inv hinv hx
  | store addr v =>
    obtain ⟨x, hx, ha1, ha2⟩ := hop
    exact ⟨fl, hinv.store hx ha1 ha2 v⟩

end

theorem heapRoomy_of_admits {op : HeapOp} (hop : heapAdmits s op) : heapRoomy hp s op := by
  cases op with
  | kmalloc sz node =>
    have hfits := hp.fits
    have hpool : heapPoolSize = 16777216 := rfl
    have hsz : sz ≤ 4096 := hop.2
    show _ < _
    omega
  | kfree ptr => exact hop
  | store addr v => exact hop

end Steps

/-! ## 5. Every run -/

/-- **The heap is divided**, in every run from `kmalloc_init` with 1 to 8 nodes. -/
theorem kmalloc_partition (hp : HeapPool) (n : Nat) (mem : Bytes) (h1 : 1 ≤ n) (h8 : n ≤ numaMaxNodes)
    (h : Log HeapOp (Option Nat)) (s : HeapRun)
    (hr : Reach heapAdmits (heapStep hp) ⟨kmallocInit hp n mem, []⟩ h s) : Partition hp n s := by
  obtain ⟨fl, hinv⟩ := hr.invState (I := fun s => ∃ fl, HeapInv hp n fl s) ⟨_, heapInv_start ⟨h1, h8⟩ mem⟩
    fun s op hinv hop => heapStep_inv hinv.choose_spec (heapRoomy_of_admits hop)
  exact hinv.partition

/-- A pool behind the kernel at 2 MiB. -/
def lowPool : HeapPool := ⟨4194304, by decide, by decide, by decide⟩

/-- Three nodes, whose pools start in the middle of table entries, and two allocations. -/
theorem kmalloc_partition_three : Partition lowPool 3 (heapStep lowPool
    (heapStep lowPool ⟨kmallocInit lowPool 3 zeroBytes, []⟩ (.kmalloc 100 1)).2 (.kmalloc 4096 2)).2 := by
  have hop : ∀ s, heapAdmits s (.kmalloc 100 1) ∧ heapAdmits s (.kmalloc 4096 2) := fun s =>
    show (0 < 100 ∧ 100 ≤ 4096) ∧ 0 < 4096 ∧ 4096 ≤ 4096 by decide
  exact kmalloc_partition lowPool 3 zeroBytes (by decide) (by decide) _ _
    (.step _ _ _ (.step [] _ _ .start (hop _).1) (hop _).2)

end Kobalt.Mm
