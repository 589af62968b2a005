/-
  Subject: THE LAYOUT A FORMAT WRITES (`flatfs_mkfs`, `flatfs_super_init`): superblocks, journal,
  inode table, B-tree root, free-list groups and data area, one after the other.

  The sizes are sums and differences of 64-bit words, and `flatfs_mkfs` accepts every capacity from
  32 blocks on, although the regions before the data area alone take more than a thousand.
  `flatfsMkfs_layout_iff` says for which of the accepted capacities the layout is sound.
-/
import Kobalt.Flatfs.Alloc

namespace Kobalt.Flatfs

def flatfsMkfs (s : FS) (capacity : Nat) (label : Option Text) : Done :=
  if capacity < blockSize * 32 then (.inval, s) else
  let ninodes := (capacity >>> blockShift) / 8
  let ninodes := if ninodes < 64 then 64 else ninodes
  let ninodes := if ninodes > 65536 then 65536 else ninodes
  flatfsSuperInit s capacity label ninodes

/-- **A sound layout**: the regions follow each other inside the device, the inode table holds all
    inodes, the groups cover the data area, and the data area is what is free. -/
structure LayoutOk (sb : Super) : Prop where
  supers : 2 ≤ sb.journalStart
  journal : sb.journalStart + sb.journalBlocks ≤ sb.inodeTableStart
  inodes : sb.inodeTableStart + sb.inodeTableBlocks ≤ sb.btreeRootBlk
  btree : sb.btreeRootBlk + 1 ≤ sb.freelistStart
  groups : sb.freelistStart + sb.freelistBlocks ≤ sb.dataStart
  data : sb.dataStart ≤ sb.totalBlocks
  room : sb.totalInodes ≤ sb.inodeTableBlocks * inodesPerBlk
  covers : ∀ b, sb.dataStart ≤ b → b < sb.totalBlocks →
    ∃ gi < sb.freelistBlocks, sb.dataStart + gi * groupBlocks ≤ b ∧
      b < sb.dataStart + (gi + 1) * groupBlocks
  free : sb.freeBlocks + sb.dataStart = sb.totalBlocks

/-- The number of inodes `flatfs_mkfs` chooses for a device of `T` blocks. -/
def mkfsInodes (T : Nat) : Nat := if T / 8 < 64 then 64 else if T / 8 > 65536 then 65536 else T / 8

/-- Where the free-list groups start on a device of `T` blocks. -/
def groupsAt (T : Nat) : Nat := 1029 + (mkfsInodes T + 15) / 16

theorem mkfsInodes_le (T : Nat) : mkfsInodes T ≤ 65536 := by grind [mkfsInodes]

/-- From 1040 blocks on, two blocks or more follow the start of the groups. -/
theorem groupsAt_le {T : Nat} (h : 1040 ≤ T) : groupsAt T + 2 ≤ T := by grind [groupsAt, mkfsInodes]

theorem lt_groupsAt {T : Nat} (h : T < 1038) : T < groupsAt T := by grind [groupsAt, mkfsInodes]

section Format

variable {s : FS} {cap : Nat} {label : Option Text}

/-- **The fields a format computes**, with the differences it takes modulo `2 ^ 64`. -/
theorem flatfsMkfs_fields (hok : (flatfsMkfs s cap label).1 = .ok) :
    ∃ sb, (flatfsMkfs s cap label).2.super = sb ∧ sb.totalBlocks = cap / 4096 ∧ sb.journalStart = 4 ∧
      sb.journalBlocks = 1024 ∧ sb.inodeTableStart = 1028 ∧
      sb.inodeTableBlocks = (mkfsInodes (cap / 4096) + 15) / 16 ∧
      sb.totalInodes = mkfsInodes (cap / 4096) ∧ sb.btreeRootBlk + 1 = groupsAt (cap / 4096) ∧
      sb.freelistStart = groupsAt (cap / 4096) ∧
      sb.freelistBlocks = u64 (sub64 (sub64 (cap / 4096) (groupsAt (cap / 4096))) 1 + 2047) / 2048 ∧
      sb.dataStart = u64 (groupsAt (cap / 4096) + sb.freelistBlocks) ∧
      sb.freeBlocks = sub64 (cap / 4096) sb.dataStart := by
  unfold flatfsMkfs at hok ⊢
  by_cases hsmall : cap < blockSize * 32
  · rw [if_pos hsmall] at hok
    cases hok
  rw [if_neg hsmall]
  have hT : cap >>> blockShift = cap / 4096 := Nat.shiftRight_eq_div_pow cap 12
  have hin : (let n := (cap >>> blockShift) / 8; let n := if n < 64 then 64 else n
      if n > 65536 then 65536 else n) = mkfsInodes (cap / 4096) := by
    simp only [hT, mkfsInodes]
    split <;> simp_all
  simp only at hin ⊢
  rw [hin]
  have hle := mkfsInodes_le (cap / 4096)
  have hbig : ¬cap < blockSize * 16 := by
    unfold blockSize at hsmall ⊢
    omega
  unfold groupsAt
  generalize mkfsInodes (cap / 4096) = N at hle
  -- the first sums stay far below the word size
  have h1 : u64 (N + inodesPerBlk - 1) / inodesPerBlk = (N + 15) / 16 := by
    rw [inodesPerBlk, u64_of_lt (by omega)]
    rfl
  have h2 : u64 (2 + 2 + journalBlocksDefault + (N + 15) / 16) = 1028 + (N + 15) / 16 := by
    rw [journalBlocksDefault, u64_of_lt (by omega)]
  have h3 : u64 (1028 + (N + 15) / 16 + 1) = 1029 + (N + 15) / 16 := by
    rw [u64_of_lt (by omega)]
    omega
  have h4 : ∀ x, x + groupBlocks - 1 = x + 2047 := fun x => by
    unfold groupBlocks
    omega
  unfold flatfsSuperInit
  rw [if_neg hbig]
  simp only [flatfsSuperUpdateCrc, h1, h2, h3, h4, hT]
  exact ⟨_, rfl, rfl, rfl, rfl, rfl, rfl, rfl, Nat.add_right_comm 1028 _ 1, rfl, rfl, rfl, rfl⟩

end Format

/-- **The layout of a format is sound exactly where the device has room for it**: for every
    accepted capacity, either the regions end with the device, or at least two blocks follow the
    start of the groups. With exactly one such block no group covers it, and with less room than
    that the data area starts past the end of the device. -/
theorem flatfsMkfs_layout_iff (s : FS) (cap : Nat) (label : Option Text)
    (hcap : cap < 2 ^ 64) (hok : (flatfsMkfs s cap label).1 = .ok) :
    LayoutOk (flatfsMkfs s cap label).2.super ↔ cap / 4096 = 1038 ∨ 1040 ≤ cap / 4096 := by
  obtain ⟨sb, hsb, htot, hjs, hjb, hit, hib, hin, hbt, hfs, hng, hds, hfb⟩ := flatfsMkfs_fields hok
  rw [hsb]
  have hT : cap / 4096 < 2 ^ 52 := by omega
  generalize cap / 4096 = T at *
  have htail : ∀ g, sb.freelistBlocks = g → groupsAt T + g ≤ T → T ≤ groupsAt T + g + g * 2048 →
      LayoutOk sb := by
    intro g hg hroom hcov
    have ho : groupsAt T = 1029 + (mkfsInodes T + 15) / 16 := rfl
    rw [hg, u64_of_lt (by omega)] at hds
    rw [hds, sub64_of_le hroom (by omega)] at hfb
    refine ⟨by omega, by omega, by omega, by omega, by omega, by omega, ?_, ?_, by omega⟩
    · rw [hin, hib, inodesPerBlk]
      omega
    · intro b hlo hhi
      refine ⟨(b - sb.dataStart) / 2048, by omega, ?_, ?_⟩ <;> unfold groupBlocks <;> omega
  rcases Nat.lt_or_ge T 1038 with hlt | hge
  · -- the difference wraps around and yields no group
    have ho := lt_groupsAt hlt
    have hog : groupsAt T ≤ 5125 := by
      have := mkfsInodes_le T
      unfold groupsAt
      omega
    refine iff_of_false (fun h => ?_) (by omega)
    have := h.groups
    have := h.data
    omega
  rcases Nat.lt_or_ge T 1040 with hlt | hge'
  · have ho : groupsAt T = 1038 := by
      obtain rfl | rfl : T = 1038 ∨ T = 1039 := by omega
      · decide
      · decide
    have hg : sb.freelistBlocks = 0 := by
      rw [hng, ho]
      unfold sub64 u64
      omega
    rw [ho] at htail
    refine ⟨fun h => ?_, fun h => htail 0 hg (by omega) (by omega)⟩
    -- with one block of data and no group, nothing covers that block
    by_contra hne
    obtain ⟨gi, hgi, -⟩ := h.covers 1038 (by rw [hds, hg, ho]; decide) (by omega)
    omega
  · have ho := groupsAt_le hge'
    refine iff_of_true ?_ (.inr hge')
    have hg : sb.freelistBlocks = (T - groupsAt T + 2046) / 2048 := by
      rw [hng, sub64_of_le (a := T) (by omega) (by omega), sub64_of_le (by omega) (by omega),
        u64_of_lt (by omega)]
      congr 1
      omega
    exact htail _ hg (by omega) (by omega)

theorem flatfsMkfs_layout_iff_1100 : (flatfsMkfs (bufferWith fun _ => {}) 4505600 none).1 = .ok ∧
      LayoutOk (flatfsMkfs (bufferWith fun _ => {}) 4505600 none).2.super := by
  have hok : (flatfsMkfs (bufferWith fun _ => {}) 4505600 none).1 = .ok := rfl
  exact ⟨hok, (flatfsMkfs_layout_iff _ 4505600 none (by decide) hok).2 (by decide)⟩

/-- A format of a zeroed buffer of 32 blocks. -/
def format32 : Done := flatfsMkfs (bufferWith fun _ => {}) 131072 none

/-- **A device of 32 blocks is accepted and its data area starts past its end**, with the number of
    free blocks wrapped around. -/
theorem flatfsMkfs_past_end : format32.1 = .ok ∧ format32.2.super.totalBlocks = 32 ∧
    format32.2.super.dataStart = 1033 ∧ format32.2.super.freeBlocks = 2 ^ 64 - 1001 ∧
    ¬LayoutOk format32.2.super := by
  have hok : format32.1 = .ok := rfl
  obtain ⟨sb, hsb, htot, -, -, -, -, -, -, -, hng, hds, hfb⟩ := flatfsMkfs_fields hok
  change format32.2.super = sb at hsb
  have hd : sb.dataStart = 1033 := by
    rw [hds, hng]
    decide
  have ht : sb.totalBlocks = 32 := htot
  rw [hsb]
  refine ⟨hok, ht, hd, ?_, fun h => ?_⟩
  · rw [hfb, hd]
    decide
  · have := h.data
    omega

end Kobalt.Flatfs
