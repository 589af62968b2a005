/-
  Subject: WHAT A TRUNCATION GIVES BACK (`flatfs_file_truncate`).

  The loop frees what `map_block` finds for the logical blocks behind the new end. It clears no
  pointer, and it looks at the pointers of an inline file too, where they are bytes of the file.
-/
import Kobalt.Flatfs.Own

namespace Kobalt.Flatfs

/-! ## 1. The block behind a logical block -/

/-- The block `map_block` finds without filling holes, 0 for none. -/
def mappedTo (s : FS) (i : Inode) (lb : Nat) : Nat :=
  match (mapBlock s i lb false).1 with
  | .ok pb => pb
  | .error _ => 0

section Mapped

variable {s : FS} {i : Inode} {lb : Nat}

theorem truncateOne_eq : truncateOne i s lb =
    if mappedTo s i lb = 0 then s else (flatfsFreeBlock s (mappedTo s i lb)).2 := by grind [truncateOne, mappedTo]

theorem mapBlock_congr {s' : FS} (h : s'.blk = s.blk) :
    (mapBlock s' i lb false).1 = (mapBlock s i lb false).1 := by
  unfold mapBlock mapWalk
  simp only [inodeSlot_read, walkOn_read, blockSlot_read, h]
  grind

theorem mappedTo_congr {s' : FS} (h : s'.blk = s.blk) : mappedTo s' i lb = mappedTo s i lb := by
  unfold mappedTo
  rw [mapBlock_congr h]

theorem mappedTo_toobig (h : 262666 ≤ lb) : mappedTo s i lb = 0 := by
  unfold mappedTo
  rw [mapBlock_toobig h]

theorem mappedTo_eq_val (hm : i.mapped = true) (hino : i.ino < s.super.totalInodes)
    (h : lb < 262666) : mappedTo s i lb = (s.over i).val (lslot i.ino lb) := by
  unfold mappedTo
  rw [mapBlock_read hm hino h]

theorem mappedTo_zero : mappedTo s i 0 = i.blkPtr 0 := by
  unfold mappedTo mapBlock mapWalk
  rw [if_pos (by decide), inodeSlot_read]
  show (if i.blkPtr 0 = 0 then none else some (i.blkPtr 0)).getD 0 = _
  split
  · rename_i h
    exact h.symm
  · rfl

end Mapped

/-! ## 2. Giving back -/

/-- **The blocks in `B` were given back**, and nothing else happened. -/
structure Released (s : FS) (B : Nat → Prop) (t : FS) : Prop where
  inv : AllocInv t
  blk : t.blk = s.blk
  inode : t.inode = s.inode
  super : t.super = { s.super with freeBlocks := t.super.freeBlocks }
  alloc : ∀ b, t.Allocated b ↔ s.Allocated b ∧ ¬ B b

section Released

variable {s t u : FS} {B C : Nat → Prop}

theorem Released.none (hI : AllocInv s) : Released s (fun _ => False) s :=
  ⟨hI, rfl, rfl, rfl, fun _ => ⟨fun h => ⟨h, id⟩, And.left⟩⟩

theorem Released.congr (h : Released s B t) (hBC : ∀ b, B b ↔ C b) : Released s C t :=
  ⟨h.inv, h.blk, h.inode, h.super, fun b => by rw [h.alloc, hBC]⟩

theorem Released.trans (h : Released s B t) (h' : Released t C u) : Released s (fun b => B b ∨ C b) u := by
  refine ⟨h'.inv, h'.blk.trans h.blk, h'.inode.trans h.inode, ?_, fun b => ?_⟩
  · rw [h'.super, h.super]
  · rw [h'.alloc, h.alloc, not_or, and_assoc]

theorem allocated_giveBit (s : FS) (k b : Nat) : (s.giveBit k).Allocated b ↔
    s.Allocated b ∧ b - s.super.dataStart ≠ k := by
  show (s.super.dataStart ≤ b ∧ b < s.super.totalBlocks ∧
    (s.giveBit k).bitAt (b - s.super.dataStart) = true) ↔ _
  rw [bitAt_giveBit]
  grind [FS.Allocated]

theorem flatfsFreeBlock_released (hI : AllocInv s) (x : Nat) :
    Released s (fun b => b = x) (flatfsFreeBlock s x).2 := by
  rcases flatfsFreeBlock_spec hI x with ⟨hx, he, hI'⟩ | ⟨hx, e, -, he⟩
  · rw [he]
    refine ⟨hI', rfl, rfl, rfl, fun b => ?_⟩
    rw [allocated_giveBit]
    refine and_congr_right fun hb => not_congr ?_
    have h1 := hx.1
    have h2 := hb.1
    omega
  · rw [he]
    refine ⟨hI, rfl, rfl, rfl, fun b => ⟨fun h => ⟨h, fun e => hx (e ▸ h)⟩, And.left⟩⟩

theorem truncateOne_released (hI : AllocInv s) (i : Inode) (lb : Nat) :
    Released s (fun b => b ≠ 0 ∧ mappedTo s i lb = b) (truncateOne i s lb) := by
  rw [truncateOne_eq]
  by_cases h : mappedTo s i lb = 0
  · rw [if_pos h]
    refine (Released.none hI).congr fun b => ?_
    grind
  · rw [if_neg h]
    grind [flatfsFreeBlock_released]

/-- **The loop of a truncation**, by induction on the logical blocks still to do: what they are
    mapped to does not change on the way. -/
theorem truncate_released (i : Inode) (lbs : List Nat) : ∀ {s : FS}, AllocInv s →
    Released s (fun b => b ≠ 0 ∧ ∃ lb ∈ lbs, mappedTo s i lb = b) (lbs.foldl (truncateOne i) s) := by
  induction lbs with
  | nil => exact fun hI => (Released.none hI).congr fun b => by simp
  | cons lb lbs ih =>
    intro s hI
    have h1 := truncateOne_released hI i lb
    have h2 := ih h1.inv
    refine (h1.trans h2).congr fun b => ?_
    simp only [mappedTo_congr h1.blk, List.mem_cons, exists_eq_or_imp, ← and_or_left]

end Released

/-! ## 3. Shrinking a file -/

/-- The logical blocks a truncation to `n` gives back. -/
def cutBlocks (i : Inode) (n : Nat) : List Nat :=
  (List.range (blocksFor i.size - blocksFor n)).map (blocksFor n + ·)

theorem mem_cutBlocks {i : Inode} {n lb : Nat} :
    lb ∈ cutBlocks i n ↔ blocksFor n ≤ lb ∧ lb < blocksFor i.size := by
  unfold cutBlocks
  rw [List.mem_map]
  constructor
  · rintro ⟨k, hk, rfl⟩
    have := List.mem_range.mp hk
    omega
  · rintro ⟨h1, h2⟩
    exact ⟨lb - blocksFor n, List.mem_range.mpr (by omega), by omega⟩

/-- The inode a truncation to `n` writes: only a truncation to nothing clears inline bytes. -/
def Inode.cut (i : Inode) (n : Nat) : Inode :=
  if n = 0 ∧ i.isInline = true then { i with size := n, data := fill i.data 0 96 fun _ => 0 }
  else { i with size := n }

theorem flatfsFileTruncate_shrink {s : FS} (hI : AllocInv s) {i : Inode} {n : Nat} (h : n < i.size) :
    ∃ t, Released s (fun b => b ≠ 0 ∧ ∃ lb ∈ cutBlocks i n, mappedTo s i lb = b) t ∧ flatfsFileTruncate s i n =
        ((flatfsInodeWrite t (i.cut n)).1, i.cut n, (flatfsInodeWrite t (i.cut n)).2) := by
  refine ⟨_, truncate_released i (cutBlocks i n) hI, ?_⟩
  unfold flatfsFileTruncate
  rw [if_neg (by omega), if_neg (by omega)]
  rfl

end Kobalt.Flatfs
