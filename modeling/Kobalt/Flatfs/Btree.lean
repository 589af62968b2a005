/-
  Subject: THE B-TREE (`flatfs_btree.c`, `flatfs_btree_node.c`, `flatfs_btree_balance.c`).

  Keys are pairs of a hash and an inode number. A node fills one block. An insertion splits every full
  node it meets on its way down, so that there is room above when a node below is split; a deletion
  removes the key from its leaf and never merges.
-/
import Mathlib.Data.Prod.Lex
import Kobalt.Lib.Arrays
import Kobalt.Flatfs.Own

namespace Kobalt.Flatfs

open Function

/-! ## 1. Keys -/

/-- `flatfs_btkey_t`. -/
@[ext] structure BtKey where
  hash : Nat
  ino : Nat
  deriving DecidableEq, Repr

/-- Keys are ordered by hash, then by inode number. -/
instance : LinearOrder BtKey :=
  LinearOrder.lift' (fun k : BtKey => toLex (k.hash, k.ino)) fun a b h => by
    have := toLex_inj.1 h
    grind [BtKey.ext]

def btkeyCmp (a b : BtKey) : Int :=
  if a.hash < b.hash then -1
  else if a.hash > b.hash then 1
  else if a.ino < b.ino then -1
  else if a.ino > b.ino then 1
  else 0

section Cmp

variable {a b : BtKey}

theorem btKey_lt_iff : a < b ↔ a.hash < b.hash ∨ a.hash = b.hash ∧ a.ino < b.ino :=
  Prod.Lex.lt_iff

theorem btkeyCmp_neg : btkeyCmp a b < 0 ↔ a < b := by grind [btKey_lt_iff, btkeyCmp]

theorem btkeyCmp_zero : btkeyCmp a b = 0 ↔ a = b := by grind [BtKey.ext_iff, btkeyCmp]

theorem btkeyCmp_nonneg : btkeyCmp a b ≥ 0 ↔ b ≤ a := by
  rw [← not_lt, ← btkeyCmp_neg]
  omega

end Cmp

/-! ## 2. Nodes -/

def btreeOrder : Nat := 120
def btreeMagic : Nat := 0x46425452
def btreeMaxHeight : Nat := 16

/-- `flatfs_btnode_t`. The arrays `values` of a leaf and `children` of another node are one union. -/
structure BtNode where
  magic : Nat := 0
  isLeaf : Bool := false
  count : Nat := 0
  level : Nat := 0
  selfBlk : Nat := 0
  parentBlk : Nat := 0
  nextLeaf : Nat := 0
  prevLeaf : Nat := 0
  keys : Nat → BtKey := fun _ => ⟨0, 0⟩
  slots : Nat → Nat := fun _ => 0

def btnodeInit (blk parent : Nat) (isLeaf : Bool) (level : Nat) : BtNode :=
  { magic := btreeMagic, selfBlk := blk, parentBlk := parent, isLeaf := isLeaf, level := level }

def btnodeLowerBound (n : BtNode) (k : BtKey) : Nat :=
  bisect (fun i => btkeyCmp (n.keys i) k < 0) 0 n.count

def btnodeLeafInsertAt (n : BtNode) (pos : Nat) (k : BtKey) (val : Nat) : BtNode :=
  { n with
    keys := update (shiftUp n.keys pos n.count) pos k
    slots := update (shiftUp n.slots pos n.count) pos val
    count := n.count + 1 }

def btnodeInternalInsertAt (n : BtNode) (pos : Nat) (k : BtKey) (child : Nat) : BtNode :=
  { n with
    keys := update (shiftUp n.keys pos n.count) pos k
    slots := update (shiftUp n.slots (pos + 1) (n.count + 1)) (pos + 1) child
    count := n.count + 1 }

/-- `btnode_remove_at` on a leaf, the only node it is called for. -/
def btnodeRemoveAt (n : BtNode) (pos : Nat) : BtNode :=
  { n with
    keys := shiftDown n.keys pos (n.count - 1 - pos)
    slots := shiftDown n.slots pos (n.count - 1 - pos)
    count := n.count - 1 }

/-- **The tree**: the nodes by their blocks, `g_bt`, and the allocator with the superblock. -/
structure Bt where
  fs : FS
  node : Nat → BtNode
  rootBlk : Nat
  height : Nat

/-- A node changed in the cache and flushed. -/
def Bt.setNode (s : Bt) (b : Nat) (n : BtNode) : Bt :=
  { s with node := update s.node b { n with magic := btreeMagic } }

def btnodeAlloc (s : Bt) : Result Nat × Bt :=
  match flatfsAllocBlock s.fs with
  | (.error e, fs) => (.error e, { s with fs := fs })
  | (.ok b, fs) => (.ok b, { s with fs := fs, node := update s.node b {} })

/-! ## 3. The calls -/

def flatfsBtreeInit (s : Bt) (rootBlk : Nat) : FlatfsErr × Bt :=
  let s := { s with rootBlk := rootBlk }
  if ¬ (0 < rootBlk ∧ rootBlk < s.fs.super.totalBlocks) then (.inval, s) else
  if (s.node rootBlk).magic ≠ btreeMagic then
    (.ok, { s.setNode rootBlk (btnodeInit rootBlk 0 true 0) with height := 1 })
  else (.ok, { s with height := (s.node rootBlk).level + 1 })

/-- The loop of `flatfs_btree_lookup`. -/
def lookupLoop (s : Bt) (k : BtKey) : Nat → Nat → Option (Result Nat)
  | 0, _ => none
  | fuel + 1, blk =>
    let n := s.node blk
    if n.magic ≠ btreeMagic then some (.error .corrupt) else
    let pos := btnodeLowerBound n k
    if n.isLeaf then
      if pos < n.count ∧ btkeyCmp (n.keys pos) k = 0 then some (.ok (n.slots pos))
      else some (.error .notfound)
    else lookupLoop s k fuel (n.slots pos)

/-- `flatfs_btree_lookup`. It goes down one level with each node. -/
def flatfsBtreeLookup (s : Bt) (k : BtKey) : Option (Result Nat) :=
  lookupLoop s k ((s.node s.rootBlk).level + 1) s.rootBlk

/-- What `btree_split` leaves in the node itself. -/
def splitKeep (n : BtNode) (sib : Nat) : BtNode :=
  if n.isLeaf then { n with count := n.count / 2, nextLeaf := sib } else { n with count := n.count / 2 }

/-- The sibling it makes. A leaf keeps the separator there, an inner node passes it up. -/
def splitSib (n : BtNode) (sib parentBlk : Nat) : BtNode :=
  let mid := n.count / 2
  let half := n.count - mid
  let z := btnodeInit sib parentBlk n.isLeaf n.level
  if n.isLeaf then
    { z with
      keys := copyOver z.keys half fun i => n.keys (mid + i)
      slots := copyOver z.slots half fun i => n.slots (mid + i)
      count := half
      nextLeaf := n.nextLeaf
      prevLeaf := n.selfBlk }
  else
    { z with
      keys := copyOver z.keys (half - 1) fun i => n.keys (mid + 1 + i)
      slots := copyOver z.slots half fun i => n.slots (mid + 1 + i)
      count := half - 1 }

/-- The two halves in place, and the leaf behind them linked back. -/
def Bt.halved (s : Bt) (blk sib parentBlk : Nat) : Bt :=
  let n := s.node blk
  let s := (s.setNode sib (splitSib n sib parentBlk)).setNode blk (splitKeep n sib)
  if n.isLeaf ∧ n.nextLeaf ≠ 0 then s.setNode n.nextLeaf { s.node n.nextLeaf with prevLeaf := sib }
  else s

/-- `btree_split` of the node in `blk`: the separator and the new sibling. -/
def btreeSplit (s : Bt) (blk parentBlk : Nat) : Result (BtKey × Nat) × Bt :=
  match btnodeAlloc s with
  | (.error e, s) => (.error e, s)
  | (.ok sib, s) =>
    let n := s.node blk
    (.ok (n.keys (n.count / 2), sib), s.halved blk sib parentBlk)

/-- The new root over the two halves of the old one. -/
def Bt.withRoot (s : Bt) (nr blk sib : Nat) (sep : BtKey) : Bt :=
  let n := btnodeInit nr 0 false ((s.node blk).level + 1)
  let s := s.setNode nr { n with
    keys := update n.keys 0 sep
    slots := update (update n.slots 0 blk) 1 sib
    count := 1 }
  { s with
    rootBlk := nr
    height := s.height + 1
    fs := { s.fs with super := { s.fs.super with btreeRootBlk := nr } } }

/-- The loop of `flatfs_btree_insert`; `path` is `path_blk` and `path_pos`, the newest first. -/
def insertLoop (k : BtKey) (val : Nat) :
    Nat → Bt → List (Nat × Nat) → Nat → Option (FlatfsErr × Bt)
  | 0, _, _, _ => none
  | fuel + 1, s, path, blk =>
    if (s.node blk).magic ≠ btreeMagic then some (.corrupt, s) else
    if (s.node blk).count = btreeOrder then
      match btreeSplit s blk ((path.head?.map Prod.fst).getD 0) with
      | (.error e, s) => some (e, s)
      | (.ok (sep, sib), s) =>
        if blk = s.rootBlk then
          match btnodeAlloc s with
          | (.error e, s) => some (e, s)
          | (.ok nr, s) => insertLoop k val fuel (s.withRoot nr blk sib sep) [] nr
        else
          match path with
          | [] => none
          | (pb, ppos) :: _ =>
            let s := s.setNode pb (btnodeInternalInsertAt (s.node pb) ppos sep sib)
            insertLoop k val fuel s path (if btkeyCmp k sep ≥ 0 then sib else blk)
    else
      let n := s.node blk
      let pos := btnodeLowerBound n k
      if n.isLeaf then
        if pos < n.count ∧ btkeyCmp (n.keys pos) k = 0 then some (.exist, s)
        else some (.ok, s.setNode blk (btnodeLeafInsertAt n pos k val))
      else if path.length ≥ btreeMaxHeight then none
      else insertLoop k val fuel s ((blk, pos) :: path) (n.slots pos)

/-- `flatfs_btree_insert`. A new root costs one round, and every level a split and a step down. -/
def flatfsBtreeInsert (s : Bt) (k : BtKey) (val : Nat) : Option (FlatfsErr × Bt) :=
  insertLoop k val (2 * (s.node s.rootBlk).level + 4) s [] s.rootBlk

/-- The loop of `flatfs_btree_delete`. -/
def deleteLoop (s : Bt) (k : BtKey) : Nat → Nat → Option (FlatfsErr × Bt)
  | 0, _ => none
  | fuel + 1, blk =>
    let n := s.node blk
    if n.magic ≠ btreeMagic then some (.corrupt, s) else
    let pos := btnodeLowerBound n k
    if n.isLeaf then
      if pos ≥ n.count ∨ btkeyCmp (n.keys pos) k ≠ 0 then some (.notfound, s)
      else some (.ok, s.setNode blk (btnodeRemoveAt n pos))
    else deleteLoop s k fuel (n.slots pos)

def flatfsBtreeDelete (s : Bt) (k : BtKey) : Option (FlatfsErr × Bt) :=
  deleteLoop s k ((s.node s.rootBlk).level + 1) s.rootBlk

/-! ## 4. Blocks for nodes -/

/-- **A block was taken**: it was free, and it is the only one that changed hands. -/
structure Taken (f : FS) (b : Nat) (f' : FS) : Prop where
  inv : AllocInv f'
  fresh : ¬ f.Allocated b
  low : f.super.dataStart ≤ b
  alloc : ∀ x, f'.Allocated x ↔ x = b ∨ f.Allocated x
  super : f'.super = { f.super with freeBlocks := f.super.freeBlocks - 1 }

theorem flatfsAllocBlock_taken {f : FS} (hI : AllocInv f) :
    (f.super.freeBlocks = 0 ∧ flatfsAllocBlock f = (.error .nospace, f)) ∨
      ∃ b f', f.super.freeBlocks ≠ 0 ∧ flatfsAllocBlock f = (.ok b, f') ∧ Taken f b f' := by
  by_cases h0 : f.super.freeBlocks = 0
  · refine .inl ⟨h0, ?_⟩
    unfold flatfsAllocBlock
    rw [if_pos h0]
  rcases flatfsAllocBlock_spec hI with ⟨h, -⟩ | ⟨k, hk, hbit, he, hI'⟩
  · exact absurd h h0
  refine .inr ⟨_, _, h0, he, hI', fun hal => ?_, Nat.le_add_right .., allocated_takeBit hk, rfl⟩
  grind [hal.2.2]

section Blocks

variable {s : Bt}

/-- The tree with a zeroed block more. -/
def Bt.withBlock (s : Bt) (b : Nat) (fs : FS) : Bt := { s with fs := fs, node := update s.node b {} }

theorem btnodeAlloc_taken (hI : AllocInv s.fs) :
    (s.fs.super.freeBlocks = 0 ∧ btnodeAlloc s = (.error .nospace, s)) ∨
      ∃ b fs, s.fs.super.freeBlocks ≠ 0 ∧ btnodeAlloc s = (.ok b, s.withBlock b fs) ∧ Taken s.fs b fs := by
  unfold btnodeAlloc
  rcases flatfsAllocBlock_taken hI with ⟨h0, he⟩ | ⟨b, fs, h0, he, ht⟩
  · refine .inl ⟨h0, ?_⟩
    rw [he]
  · refine .inr ⟨b, fs, h0, ?_, ht⟩
    rw [he]
    rfl

theorem btreeSplit_eq (hI : AllocInv s.fs) (blk parentBlk : Nat) :
    (s.fs.super.freeBlocks = 0 ∧ btreeSplit s blk parentBlk = (.error .nospace, s)) ∨
      ∃ sib fs, s.fs.super.freeBlocks ≠ 0 ∧ Taken s.fs sib fs ∧ btreeSplit s blk parentBlk =
        (.ok (((s.withBlock sib fs).node blk).keys (((s.withBlock sib fs).node blk).count / 2), sib),
          (s.withBlock sib fs).halved blk sib parentBlk) := by grind [btreeSplit, btnodeAlloc_taken]

@[simp] theorem setNode_fs (b : Nat) (n : BtNode) : (s.setNode b n).fs = s.fs := rfl

@[simp] theorem setNode_rootBlk (b : Nat) (n : BtNode) : (s.setNode b n).rootBlk = s.rootBlk := rfl

/-- The node `x` after a split of `blk`, up to the link back. -/
def splitNode (s : Bt) (blk sib parentBlk x : Nat) : BtNode :=
  if x = blk then splitKeep (s.node blk) sib
  else if x = sib then splitSib (s.node blk) sib parentBlk
  else s.node x

theorem splitKeep_magic (n : BtNode) (sib : Nat) : (splitKeep n sib).magic = n.magic := by
  unfold splitKeep
  split <;> rfl

theorem splitSib_magic (n : BtNode) (sib parentBlk : Nat) : (splitSib n sib parentBlk).magic = btreeMagic := by
  unfold splitSib
  dsimp only
  split <;> rfl

theorem BtNode.with_magic {n : BtNode} (h : n.magic = btreeMagic) :
    ({ n with magic := btreeMagic } : BtNode) = n := by
  rw [← h]

/-- The node `x` after a split of `blk`. -/
def halfNode (s : Bt) (blk sib parentBlk x : Nat) : BtNode :=
  { splitNode s blk sib parentBlk x with
    prevLeaf := if (s.node blk).isLeaf ∧ (s.node blk).nextLeaf ≠ 0 ∧ x = (s.node blk).nextLeaf then sib
      else (splitNode s blk sib parentBlk x).prevLeaf }

section Half

variable {blk sib x : Nat} (parentBlk : Nat)

theorem halfNode_of_ne (hb : x ≠ blk) (hs : x ≠ sib) (hn : (s.node blk).isLeaf = true →
    (s.node blk).nextLeaf ≠ 0 → x ≠ (s.node blk).nextLeaf) : halfNode s blk sib parentBlk x = s.node x := by
  have he : splitNode s blk sib parentBlk x = s.node x := by rw [splitNode, if_neg hb, if_neg hs]
  rw [halfNode, he, if_neg fun h => hn h.1 h.2.1 h.2.2]

theorem halfNode_leaf (hne : sib ≠ blk) (hl : (s.node blk).isLeaf = true) (x : Nat) :
    (halfNode s blk sib parentBlk x).selfBlk = (if x = sib then sib else (s.node x).selfBlk) ∧
    (halfNode s blk sib parentBlk x).nextLeaf =
      (if x = blk then sib else if x = sib then (s.node blk).nextLeaf else (s.node x).nextLeaf) ∧
    (halfNode s blk sib parentBlk x).prevLeaf =
      if (s.node blk).nextLeaf ≠ 0 ∧ x = (s.node blk).nextLeaf then sib
      else if x = sib then (s.node blk).selfBlk else (s.node x).prevLeaf := by
  grind [halfNode, splitNode, splitKeep, splitSib, btnodeInit]

/-- **A split** rewrites the node, its sibling, and the link back of the next leaf. -/
theorem halved_node (hne : blk ≠ sib) (hx : (s.node x).magic = btreeMagic ∨ x = sib) :
    (s.halved blk sib parentBlk).node x = halfNode s blk sib parentBlk x := by
  have hmag : (splitNode s blk sib parentBlk x).magic = btreeMagic := by
    unfold splitNode
    split
    · grind [splitKeep_magic]
    split
    · exact splitSib_magic ..
    · rename_i hs
      exact hx.resolve_right hs
  have h1 : ((s.setNode sib (splitSib (s.node blk) sib parentBlk)).setNode blk
      (splitKeep (s.node blk) sib)).node x = splitNode s blk sib parentBlk x := by
    rw [← BtNode.with_magic hmag]
    show update (update s.node sib _) blk _ x = _
    unfold splitNode
    by_cases hb : x = blk
    · rw [hb, update_self, if_pos rfl]
    · by_cases hs : x = sib
      · rw [update_of_ne hb, hs, update_self, if_neg (Ne.symm hne), if_pos rfl]
      · rw [update_of_ne hb, update_of_ne hs, if_neg hb, if_neg hs, BtNode.with_magic (hx.resolve_right hs)]
  unfold Bt.halved halfNode
  dsimp only
  split
  · rename_i hc
    show update _ (s.node blk).nextLeaf _ x = _
    by_cases hn : x = (s.node blk).nextLeaf
    · rw [if_pos ⟨hc.1, hc.2, hn⟩]
      grind
    · rw [if_neg fun h => hn h.2.2, update_of_ne hn]
      exact h1
  · rename_i hc
    rw [h1, if_neg fun h => hc ⟨h.1, h.2.1⟩]

end Half

theorem halved_fs (blk sib parentBlk : Nat) : (s.halved blk sib parentBlk).fs = s.fs := by
  unfold Bt.halved
  dsimp only
  split <;> rfl

theorem halved_rootBlk (blk sib parentBlk : Nat) : (s.halved blk sib parentBlk).rootBlk = s.rootBlk := by
  unfold Bt.halved
  dsimp only
  split <;> rfl

end Blocks

/-! ## 5. An insertion that finds no block -/

theorem allocInv_btreeRoot {f : FS} (h : AllocInv f) (b : Nat) :
    AllocInv { f with super := { f.super with btreeRootBlk := b } } :=
  h.congr rfl rfl rfl rfl rfl

/-- **All or nothing**: every lookup answers as before, and every block the call took is free again. -/
structure InsertUndone (s s' : Bt) : Prop where
  lookup : ∀ k, flatfsBtreeLookup s' k = flatfsBtreeLookup s k
  blocks : ∀ b, s'.fs.Allocated b ↔ s.fs.Allocated b

theorem insertLoop_full {k : BtKey} {val : Nat} : ∀ (fuel : Nat) (s s' : Bt) (path : List (Nat × Nat))
    (blk : Nat), AllocInv s.fs → s.fs.super.freeBlocks = 0 →
    insertLoop k val fuel s path blk = some (.nospace, s') → s' = s := by
  intro fuel
  induction fuel with
  | zero =>
    intro s s' path blk _ _ h
    cases h
  | succ fuel ih => grind [insertLoop, btreeSplit_eq]

/-- **With a free block, one is taken and stays taken.** -/
theorem insertLoop_takes {k : BtKey} {val : Nat} : ∀ (fuel : Nat) (s s' : Bt) (path : List (Nat × Nat))
    (blk : Nat), AllocInv s.fs → insertLoop k val fuel s path blk = some (.nospace, s') →
    (∀ b, s.fs.Allocated b → s'.fs.Allocated b) ∧
      (s.fs.super.freeBlocks ≠ 0 → ∃ b, ¬ s.fs.Allocated b ∧ s'.fs.Allocated b) := by
  intro fuel
  induction fuel with
  | zero =>
    intro s s' path blk _ h
    cases h
  | succ fuel ih =>
    intro s s' path blk hI h
    rw [insertLoop] at h
    split at h
    · cases h
    split at h
    · rcases btreeSplit_eq hI blk ((path.head?.map Prod.fst).getD 0) with
        ⟨h0, he⟩ | ⟨sib, fs, -, ht, he⟩
      · grind
      -- whatever follows keeps the sibling's block
      suffices hkeep : ∀ b, fs.Allocated b → s'.fs.Allocated b from
        ⟨fun b hb => hkeep b ((ht.alloc b).2 (.inr hb)),
          fun _ => ⟨sib, ht.fresh, hkeep sib ((ht.alloc sib).2 (.inl rfl))⟩⟩
      rw [he] at h
      dsimp only at h
      generalize hsplit : (s.withBlock sib fs).halved blk sib ((path.head?.map Prod.fst).getD 0) = s1 at h
      have hfs : s1.fs = fs := by rw [← hsplit, halved_fs]; rfl
      split at h
      · rcases btnodeAlloc_taken (s := s1) (by rw [hfs]; exact ht.inv) with ⟨-, hn⟩ | ⟨nr, fs', -, hn, ht'⟩
        · grind
        · rw [hn] at h
          dsimp only at h
          have hk := (ih _ s' _ _ (allocInv_btreeRoot ht'.inv nr) h).1
          intro b hb
          exact hk b ((ht'.alloc b).2 (.inr (by rw [hfs]; exact hb)))
      grind [setNode_fs, ht.inv]
    grind

/-- **An insertion that fails for want of a block** has changed nothing exactly if the first block it
    asked for was the one that was missing: no block was free before the call. -/
theorem insert_undone_iff (s s' : Bt) (hI : AllocInv s.fs) (k : BtKey) (val : Nat)
    (h : flatfsBtreeInsert s k val = some (.nospace, s')) : InsertUndone s s' ↔ s.fs.super.freeBlocks = 0 := by
  constructor
  · intro hu
    by_contra h0
    obtain ⟨b, hb, hb'⟩ := (insertLoop_takes _ _ _ _ _ hI h).2 h0
    exact hb ((hu.blocks b).1 hb')
  · intro h0
    rw [insertLoop_full _ _ _ _ _ hI h0 h]
    exact ⟨fun _ => rfl, fun _ => Iff.rfl⟩

/-! ## 6. Runs, and a full root -/

/-- A call on the tree. -/
inductive BtOp where
  | insert (k : BtKey) (val : Nat)
  | delete (k : BtKey)
  | lookup (k : BtKey)

/-- The calls and their answers, newest first. -/
abbrev BtLog := Log BtOp (Option (FlatfsErr × Option Nat))

/-- The call as a step: the error code and the value it stores through `val`; no answer when it leaves
    its objects or does not come to an end. -/
def btCall (s : Bt) : BtOp → Option (FlatfsErr × Option Nat) × Bt
  | .insert k val =>
    match flatfsBtreeInsert s k val with
    | some (e, s') => (some (e, none), s')
    | none => (none, s)
  | .delete k =>
    match flatfsBtreeDelete s k with
    | some (e, s') => (some (e, none), s')
    | none => (none, s)
  | .lookup k =>
    match flatfsBtreeLookup s k with
    | some (.ok v) => (some (.ok, some v), s)
    | some (.error e) => (some (e, none), s)
    | none => (none, s)

theorem btCall_insert {s s' : Bt} {k : BtKey} {val : Nat} {e : FlatfsErr}
    (h : flatfsBtreeInsert s k val = some (e, s')) : btCall s (.insert k val) = (some (e, none), s') := by
  rw [btCall, h]

theorem btnodeLowerBound_eq {n : BtNode} {k : BtKey} {c : Nat} (h : Cut n.keys n.count k c) :
    btnodeLowerBound n k = c := h.bisect fun i => by rw [decide_eq_true_iff, btkeyCmp_neg]

/-- The log of `n` insertions in order, each key with its number as value. -/
def filling : Nat → BtLog
  | 0 => []
  | n + 1 => (.insert ⟨0, n⟩ n, some (.ok, none)) :: filling n

/-- **`flatfs_btree_init` made an empty tree** in a block that the allocator does not hand out. -/
structure Created (t : Bt) (b : Nat) (s0 : Bt) : Prop where
  init : flatfsBtreeInit t b = (.ok, s0)
  blank : (t.node b).magic ≠ btreeMagic
  alloc : AllocInv t.fs
  dataPos : 0 < t.fs.super.dataStart
  kept : b < t.fs.super.dataStart ∨ t.fs.Allocated b

theorem btreeInit_blank {s s' : Bt} {b : Nat} (h : flatfsBtreeInit s b = (.ok, s'))
    (hm : (s.node b).magic ≠ btreeMagic) : s'.node b = btnodeInit b 0 true 0 ∧ s'.rootBlk = b ∧ s'.fs = s.fs := by
  unfold flatfsBtreeInit at h
  simp only [if_pos hm] at h
  split at h
  · cases h
  obtain ⟨-, rfl⟩ := Prod.mk.inj h
  exact ⟨update_self .., rfl, rfl⟩

/-- A file system from which `n` blocks were taken. -/
def drained : Nat → FS
  | 0 => mounted1100 fun _ => {}
  | n + 1 => (flatfsAllocBlock (drained n)).2

/-- No tree there yet. -/
def blankTree (n : Nat) : Bt := ⟨drained n, fun _ => {}, 0, 0⟩

theorem allocInv_blankTree (n : Nat) : AllocInv (blankTree n).fs := by
  show AllocInv (drained n)
  induction n with
  | zero => exact allocInv_1100
  | succ n ih =>
    unfold drained
    rcases flatfsAllocBlock_taken ih with ⟨-, he⟩ | ⟨b, f, -, he, ht⟩
    · rw [he]
      exact ih
    · rw [he]
      exact ht.inv

/-- The empty tree, and the tree after `k` insertions in order. -/
def filled (n : Nat) : Nat → Bt
  | 0 => (flatfsBtreeInit (blankTree n) (blankTree n).fs.super.btreeRootBlk).2
  | k + 1 => (btCall (filled n k) (.insert ⟨0, k⟩ k)).2

theorem filled_reached (n k : Nat) : ∃ l, Reach anyInput btCall (filled n 0) l (filled n k) := by
  induction k with
  | zero => exact ⟨[], .start⟩
  | succ k ih =>
    obtain ⟨l, hr⟩ := ih
    exact ⟨_, hr.step _ _ _ trivial⟩

/-- **Half a tree out of reach.** An empty tree is filled with 120 keys; the next insertion halves the
    root, finds no block for a new one, and the upper half cannot be looked up any more. -/
theorem insert_left_halved : ∃ t s0 l s s', flatfsBtreeInit t t.fs.super.btreeRootBlk = (.ok, s0) ∧
    AllocInv s0.fs ∧ Reach anyInput btCall s0 l s ∧ flatfsBtreeInsert s ⟨0, 120⟩ 120 = some (.nospace, s') ∧
    flatfsBtreeLookup s ⟨0, 119⟩ = some (.ok 119) ∧
    flatfsBtreeLookup s' ⟨0, 119⟩ = some (.error .notfound) ∧ ¬ InsertUndone s s' := by
  have hinit : flatfsBtreeInit (blankTree 65) (blankTree 65).fs.super.btreeRootBlk = (.ok, filled 65 0) :=
    Prod.ext (by decide +kernel) (by rw [filled])
  obtain ⟨l, hr⟩ := filled_reached 65 120
  generalize hn : (filled 65 120).node (filled 65 120).rootBlk = n
  have hlast : n.magic = btreeMagic ∧ n.isLeaf = true ∧ btnodeLowerBound n ⟨0, 119⟩ = 119 ∧
      (119 < n.count ∧ btkeyCmp (n.keys 119) ⟨0, 119⟩ = 0) ∧ n.slots 119 = 119 := by
    rw [← hn]
    decide +kernel
  have hlook : flatfsBtreeLookup (filled 65 120) ⟨0, 119⟩ = some (.ok 119) := by
    obtain ⟨h1, h2, h3, h4, h5⟩ := hlast
    rw [flatfsBtreeLookup, lookupLoop, hn, if_neg (not_not.2 h1)]
    dsimp only
    rw [if_pos h2, h3, if_pos h4, h5]
  have hins : (flatfsBtreeInsert (filled 65 120) ⟨0, 120⟩ 120).map (fun r => (r.1, flatfsBtreeLookup r.2 ⟨0, 119⟩)) =
      some (.nospace, some (.error .notfound)) := by decide +kernel
  obtain ⟨⟨e, s'⟩, he, hr'⟩ := Option.map_eq_some_iff.1 hins
  obtain ⟨rfl, hlook'⟩ := Prod.mk.inj hr'
  refine ⟨blankTree 65, _, l, _, s', hinit, ?_, hr, he, hlook, hlook', fun hu => ?_⟩
  · rw [(btreeInit_blank hinit (by decide)).2.2]
    exact allocInv_blankTree 65
  · rw [hu.lookup, hlook] at hlook'
    cases hlook'

theorem insert_undone_full : ∃ s, AllocInv s.fs ∧ flatfsBtreeInsert s ⟨0, 120⟩ 120 = some (.nospace, s) ∧
    InsertUndone s s := by
  have h0 : (blankTree 66).fs.super.freeBlocks = 0 := by decide +kernel
  have hins : (flatfsBtreeInsert { filled 66 120 with fs := (blankTree 66).fs } ⟨0, 120⟩ 120).map Prod.fst = some .nospace := by
    decide +kernel
  obtain ⟨s, hs⟩ : ∃ s : Bt, s = { filled 66 120 with fs := (blankTree 66).fs } := ⟨_, rfl⟩
  have hfs : s.fs = (blankTree 66).fs := by rw [hs]
  rw [← hs] at hins
  have hI := allocInv_blankTree 66
  rw [← hfs] at h0 hI
  obtain ⟨⟨e, s'⟩, he, rfl⟩ := Option.map_eq_some_iff.1 hins
  obtain rfl : s' = s := insertLoop_full _ _ _ _ _ hI h0 he
  exact ⟨_, hI, he, (insert_undone_iff _ _ hI _ _ he).2 h0⟩

end Kobalt.Flatfs
