/-
  Subject: LARGE ALLOCATIONS: requests of more than 4096 bytes, which `kmalloc_node` serves from the
  bump regions only.

  `bump_alloc` compares the sum of an address and the size modulo 2^64, and keeps that sum. A
  request that wraps passes the comparison (`large_alloc_wraps`); a run without one keeps every
  bump pointer in its region, and every region handed out so far below it.
-/
import Kobalt.Mm.Partition

namespace Kobalt.Mm

open Function

/-- **A large allocation** of `sz` bytes after `h`, with its answer and the heap it leaves. -/
structure LargeOk (hp : HeapPool) (n : Nat) (h : Log HeapOp (Option Nat)) (s : HeapRun) (sz : Nat)
    (r : Option Nat × HeapRun) : Prop where
  null : r.1 = none → r.2.heap.bumpPtr = s.heap.bumpPtr
  region : ∀ p, r.1 = some p → ∃ nid < n,
    nodeBase hp n nid + baseSlabTotal ≤ p ∧ p + sz ≤ nodeBase hp n nid + perNode n
  apart : ∀ p, r.1 = some p → ∀ sz' node p', (HeapOp.kmalloc sz' node, some p') ∈ h →
    p' + sz' ≤ p ∨ p + sz ≤ p'
  bump : ∀ nid < n, nodeBase hp n nid + baseSlabTotal ≤ r.2.heap.bumpPtr nid ∧
    r.2.heap.bumpPtr nid ≤ nodeBase hp n nid + perNode n

/-- Everything handed out so far lies below the bump pointer of a node. -/
def HandedOut (hp : HeapPool) (n : Nat) (h : Log HeapOp (Option Nat)) (s : HeapRun) : Prop :=
  ∀ sz node p, (HeapOp.kmalloc sz node, some p) ∈ h →
    ∃ k < n, nodeBase hp n k ≤ p ∧ p + sz ≤ s.heap.bumpPtr k

section Large

variable {hp : HeapPool} {n : Nat} {fl : FreeLists} {s : HeapRun} {h : Log HeapOp (Option Nat)}

theorem HandedOut.mono {s' : HeapRun} (hh : HandedOut hp n h s)
    (hb : ∀ k < n, s.heap.bumpPtr k ≤ s'.heap.bumpPtr k) : HandedOut hp n h s' := by
  intro sz node p hp
  obtain ⟨k, hk, hlow, hhigh⟩ := hh sz node p hp
  exact ⟨k, hk, hlow, hhigh.trans (hb k hk)⟩

theorem kfree_bumpPtr (hp : HeapPool) (h : Heap) (p : Nat) : (kfree hp h p).bumpPtr = h.bumpPtr := by
  unfold kfree
  simp only
  split_ifs <;> rfl

theorem heapStep_bumpPtr (hinv : HeapInv hp n fl s) {op : HeapOp}
    (hop : heapRoomy hp s op) (k : Nat) : s.heap.bumpPtr k ≤ (heapStep hp s op).2.heap.bumpPtr k := by
  cases op with
  | kmalloc sz node =>
    unfold heapStep
    rcases kmallocFrom_cases hinv hop node with
      he | ⟨-, ⟨-, i, -, q, t, -, -, he⟩ | ⟨i, -, a, -, hlow, -, he⟩⟩
    · simp only [he, le_refl]
    · simp only [he]
      exact le_rfl
    · simp only [he]
      by_cases hk : k = i
      · subst hk
        rw [update_self]
        omega
      · rw [update_of_ne hk]
  | kfree p =>
    show _ ≤ (kfree hp s.heap p).bumpPtr k
    rw [kfree_bumpPtr]
  | store addr v => exact le_rfl

theorem heapStep_live {sz node p : Nat} (h : (heapStep hp s (.kmalloc sz node)).1 = some p) :
    ∃ x ∈ (heapStep hp s (.kmalloc sz node)).2.live, x.ptr = p ∧ x.size = sz := by
  unfold heapStep at h ⊢
  dsimp only at h ⊢
  split at h
  · rename_i q origin _ _
    exact ⟨⟨q, sz, origin⟩, List.mem_cons_self, Option.some.inj h, rfl⟩
  · cases h

theorem heapInv_roomy (h1 : 1 ≤ n) (h8 : n ≤ numaMaxNodes) {mem : Bytes}
    (hr : Reach (heapRoomy hp) (heapStep hp) ⟨kmallocInit hp n mem, []⟩ h s) :
    (∃ fl, HeapInv hp n fl s) ∧ HandedOut hp n h s := by
  refine hr.inv (I := fun h s => (∃ fl, HeapInv hp n fl s) ∧ HandedOut hp n h s)
    ⟨⟨_, heapInv_start ⟨h1, h8⟩ mem⟩, fun _ _ _ hm => absurd hm List.not_mem_nil⟩ ?_
  rintro h s op ⟨⟨fl, hinv⟩, hh⟩ hop
  have hnext := heapStep_inv hinv hop
  refine ⟨hnext, fun sz node p hm => ?_⟩
  rcases List.mem_cons.1 hm with he | hm
  · obtain ⟨fl', hinv'⟩ := hnext
    obtain ⟨rfl, hans⟩ := Prod.mk.inj he
    obtain ⟨x, hx, rfl, rfl⟩ := heapStep_live hans.symm
    exact (hinv'.live x hx).pool hinv'
  · exact hh.mono (fun k _ => heapStep_bumpPtr hinv hop k) sz node p hm

/-- **Large allocations stay in the pool**, in every run of a kernel with 1 to 8 nodes whose
    requests do not wrap. -/
theorem large_alloc_in_pool (hp : HeapPool) (n : Nat) (mem : Bytes) (h1 : 1 ≤ n) (h8 : n ≤ numaMaxNodes)
    (h : Log HeapOp (Option Nat)) (s : HeapRun)
    (hr : Reach (heapRoomy hp) (heapStep hp) ⟨kmallocInit hp n mem, []⟩ h s) (sz node : Nat) (hsz : 4096 < sz)
    (hroom : hp.base + heapPoolSize + sz < 2 ^ 64) :
    LargeOk hp n h s sz (heapStep hp s (.kmalloc sz node)) := by
  obtain ⟨⟨fl, hinv⟩, hh⟩ := heapInv_roomy h1 h8 hr
  obtain ⟨fl', hinv'⟩ := kmallocFrom_inv hinv hroom node
  rcases kmallocFrom_cases hinv hroom node with
    he | ⟨-, ⟨hci, -⟩ | ⟨i, hi, a, -, hlow, hhigh, he⟩⟩
  · have hstep : heapStep hp s (.kmalloc sz node) = (none, s) := by
      simp only [heapStep, he]
    rw [hstep]
    exact ⟨fun _ => rfl, nofun, nofun, hinv.bump⟩
  · have := cidxFor_spec hci
    have := (cache_facts _ hci).2.2.1
    omega
  · have hans : (heapStep hp s (.kmalloc sz node)).1 = some a := by
      simp only [heapStep, he]
    refine ⟨fun h0 => ?_, fun p ha => ?_, fun p ha sz' node' p' hm => ?_, hinv'.bump⟩
    · rw [hans] at h0
      cases h0
    · obtain rfl := Option.some.inj (hans.symm.trans ha)
      exact ⟨i, hi, (hinv.bump i hi).1.trans hlow, hhigh⟩
    · obtain rfl := Option.some.inj (hans.symm.trans ha)
      obtain ⟨k, hk, hk1, hk2⟩ := hh sz' node' p' hm
      have hbi := hinv.bump i hi
      have hbk := hinv.bump k hk
      rcases nodes_apart hp n k i with rfl | hki | hki <;> omega

/-- A second request of two pages, next to the first. -/
theorem large_alloc_in_pool_two : ∃ s, LargeOk lowPool 1 [(.kmalloc 8192 0, some 4751360)] s 8192
    (heapStep lowPool s (.kmalloc 8192 0)) :=
  ⟨_, large_alloc_in_pool lowPool 1 zeroBytes (by decide) (by decide) _ _
    (Reach.start.eval (show _ < _ by decide) (by decide +kernel)) 8192 0 (by decide) (by decide)⟩

/-- **A request that wraps is granted**: its region reaches to the end of the address space, and the
    bump pointer is NULL afterwards. -/
theorem large_alloc_wraps : ¬ LargeOk lowPool 1 [] ⟨kmallocInit lowPool 1 zeroBytes, []⟩ (2 ^ 64 - 4751360)
    (heapStep lowPool ⟨kmallocInit lowPool 1 zeroBytes, []⟩ (.kmalloc (2 ^ 64 - 4751360) 0)) := by
  intro h
  have hb : (heapStep lowPool ⟨kmallocInit lowPool 1 zeroBytes, []⟩
    (.kmalloc (2 ^ 64 - 4751360) 0)).2.heap.bumpPtr 0 = 0 := by decide +kernel
  have := (h.bump 0 (by decide)).1
  rw [hb] at this
  exact absurd this (by decide)

end Large

end Kobalt.Mm
