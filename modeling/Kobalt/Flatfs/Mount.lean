/-
  Subject: MOUNTING AND CRASHING (`flatfs_super.c`, `flatfs_journal_recovery.c`, `flatfs_mount`):
  which of the two superblocks a mount trusts, and what that does to the accounting.

  The live superblock is block 0 of the image itself: an allocation changes its `free_blocks` in
  place and leaves its checksum as it was. The backup in block 1 is the copy of the last
  `flatfs_super_write`. A mount after a crash finds the checksum of block 0 wrong as soon as the
  count has moved, and takes the count of the backup, while the bitmaps are those of the crash.
-/
import Kobalt.Flatfs.Layout

namespace Kobalt.Flatfs

open List

/-! ## 1. The image and the code -/

def stateDirty : Nat := 0x0002
def stateError : Nat := 0x0004
def stateReplay : Nat := 0x0008
def journalMagic : Nat := 0x464A524E

/-- Clear bits of a 32-bit word. -/
def clear32 (x m : Nat) : Nat := x &&& (0xFFFFFFFF ^^^ m)

/-- `flatfs_jsuper_t`, as far as a mount reads it. -/
structure JSuper where
  magic : Nat := 0
  version : Nat := 0
  sequence : Nat := 0
  head : Nat := 0
  tail : Nat := 0
  logStart : Nat := 0
  logCount : Nat := 0

/-- **The image**: the file system, the journal's superblock, and the MAC fields, which lie in the
    padding of the two superblocks. -/
structure Image where
  fs : FS
  mac : UInt64
  backupMac : UInt64
  js : JSuper

variable {im im' : Image} {sb : Super}

/-- The 4096 bytes of a superblock with MAC field `m`. -/
def superBytes (sb : Super) (m : UInt64) : Text :=
  sb.bytes.take 4084 ++ leBytes 8 m.toNat ++ leBytes 4 sb.crc32

/-- `flatfs_super_update_crc`. -/
def superUpdateCrc (sb : Super) (m : UInt64) : Super :=
  { sb with crc32 := flatfsCrc32 (superBytes { sb with crc32 := 0 } m) }

def flatfsSuperValidate (sb : Super) (m : UInt64) : FlatfsErr :=
  if sb.magic ≠ flatfsMagic then .magic
  else if sb.version ≠ flatfsVersion then .corrupt
  else if sb.blockSize ≠ blockSize then .corrupt
  else if sb.inodeSize ≠ inodeSize then .corrupt
  else if sb.totalBlocks > maxBlocks then .bounds
  else if flatfsCrc32 (superBytes { sb with crc32 := 0 } m) = sb.crc32 then .ok else .crc

section Keyed

-- the keyed hash of the session, while TYKID is bound
variable (mac : Mac) (im : Image)

/-- `flatfs_tykid_mac_set` on a superblock: its new MAC field. -/
def superMacSet (sb : Super) (m : UInt64) : UInt64 :=
  match mac with
  | none => m
  | some f => f (sb.bytes.take 4084)

/-- `flatfs_tykid_mac_ok` on a superblock: a zero MAC field is accepted. -/
def superMacOk (sb : Super) (m : UInt64) : Bool :=
  match mac with
  | none => true
  | some f => m == 0 || m == f (sb.bytes.take 4084)

/-- `flatfs_super_read`: the primary superblock, or else the backup copied over it. -/
def flatfsSuperRead (cap : Nat) : FlatfsErr × Image :=
  if cap < blockSize * 4 then (.inval, im)
  else if flatfsSuperValidate im.fs.super im.mac = .ok then
    if superMacOk mac im.fs.super im.mac then (.ok, im) else (.crc, im)
  else
    match flatfsSuperValidate im.fs.backup im.backupMac with
    | .ok =>
      let im' := { im with
        fs := { im.fs with super := superUpdateCrc im.fs.backup im.backupMac }
        mac := im.backupMac }
      if superMacOk mac im.fs.backup im.backupMac then (.ok, im') else (.crc, im')
    | e => (e, im)

/-- `flatfs_super_write`: seal the superblock and copy it to the backup. -/
def flatfsSuperWrite : Image :=
  let sb := superUpdateCrc im.fs.super im.mac
  let m := superMacSet mac sb im.mac
  let sb := superUpdateCrc sb m
  { im with fs := { im.fs with super := sb, backup := sb }, mac := m, backupMac := m }

/-- Change the live superblock in place. -/
def Image.onSuper (f : Super → Super) : Image :=
  { im with fs := { im.fs with super := f im.fs.super } }

def flatfsSuperMarkDirty : Image :=
  flatfsSuperWrite mac (im.onSuper fun sb => { sb with
    state := clear32 sb.state stateClean ||| stateDirty, mountCount := u32 (sb.mountCount + 1) })

/-- `flatfs_journal_replay` where the log is empty, as a mount and an unmount leave it; `none` where
    the log holds records. -/
def flatfsJournalReplay : Option (FlatfsErr × Image) :=
  if im.js.magic ≠ journalMagic then some (.journal, im)
  else if im.js.head = im.js.tail then some (.ok, im)
  else none

def flatfsJournalCheckpoint : Image := { im with js := { im.js with head := im.js.tail } }

def flatfsJournalRecover : Option (FlatfsErr × Image) :=
  if im.fs.super.state &&& stateReplay ≠ 0 then some (.badstate, im) else
  let im := flatfsSuperWrite mac (im.onSuper fun sb => { sb with state := sb.state ||| stateReplay })
  match flatfsJournalReplay im with
  | none => none
  | some (.ok, im) =>
    let im := flatfsJournalCheckpoint im
    some (.ok, flatfsSuperWrite mac (im.onSuper fun sb => { sb with
      state := clear32 sb.state (stateDirty ||| stateReplay) ||| stateClean }))
  | some (e, im) =>
    some (e, flatfsSuperWrite mac (im.onSuper fun sb => { sb with
      state := sb.state ||| stateError, errorCount := u32 (sb.errorCount + 1) }))

/-- `flatfs_journal_init`: an image without a journal gets an empty one. -/
def flatfsJournalInit : Image :=
  if im.js.magic ≠ journalMagic then
    { im with js :=
      { magic := journalMagic, version := 1, sequence := 1
        logStart := u64 (im.fs.super.journalStart + 2)
        logCount := sub64 im.fs.super.journalBlocks 2 } }
  else im

/-- `flatfs_mount`. Of `flatfs_btree_init` only the test of the root block is here: the tree and the
    caches are not read by the allocator. -/
def flatfsMount (cap : Nat) : Option (FlatfsErr × Image) :=
  if cap < blockSize * 32 then some (.inval, im) else
  match flatfsSuperRead mac im cap with
  | (.ok, im) =>
    match (if im.fs.super.state &&& stateDirty ≠ 0 then flatfsJournalRecover mac im
        else some (.ok, im)) with
    | none => none
    | some (.ok, im) =>
      let im := flatfsSuperMarkDirty mac im
      (flatfsAllocInit im.fs).map fun fs =>
        let im := flatfsJournalInit { im with fs }
        if 0 < fs.super.btreeRootBlk ∧ fs.super.btreeRootBlk < fs.super.totalBlocks then (.ok, im)
        else (.inval, im)
    | some (e, im) => some (e, im)
  | (e, im) => some (e, im)

end Keyed

/-! ## 2. What a mount leaves behind -/

/-- The fields of a superblock a mount insists on. -/
def HeaderOk (sb : Super) : Prop :=
  sb.magic = flatfsMagic ∧ sb.version = flatfsVersion ∧ sb.blockSize = blockSize ∧
    sb.inodeSize = inodeSize ∧ sb.totalBlocks ≤ maxBlocks

/-- The checksum of a superblock is that of its bytes. -/
def SuperFresh (sb : Super) (m : UInt64) : Prop :=
  flatfsCrc32 (superBytes { sb with crc32 := 0 } m) = sb.crc32

theorem flatfsSuperValidate_ok {m : UInt64} :
    flatfsSuperValidate sb m = .ok ↔ HeaderOk sb ∧ SuperFresh sb m := by
  unfold flatfsSuperValidate
  split_ifs with h1 h2 h3 h4 h5 h6
  · exact iff_of_false (by decide) fun h => h1 h.1.1
  · exact iff_of_false (by decide) fun h => h2 h.1.2.1
  · exact iff_of_false (by decide) fun h => h3 h.1.2.2.1
  · exact iff_of_false (by decide) fun h => h4 h.1.2.2.2.1
  · exact iff_of_false (by decide) fun h => absurd h.1.2.2.2.2 (Nat.not_le.2 h5)
  · exact iff_of_true rfl ⟨⟨not_not.1 h1, not_not.1 h2, not_not.1 h3, not_not.1 h4, Nat.not_lt.1 h5⟩, h6⟩
  · exact iff_of_false (by decide) fun h => h6 h.2

/-- Two superblocks that differ at most in what a mount writes. -/
def Super.Like (sb sb' : Super) : Prop :=
  ∃ st mc c, sb' = { sb with state := st, mountCount := mc, crc32 := c }

theorem Super.Like.refl (sb : Super) : sb.Like sb := ⟨sb.state, sb.mountCount, sb.crc32, rfl⟩

theorem Super.Like.trans {a b c : Super} (h : a.Like b) (h' : b.Like c) : a.Like c := by
  obtain ⟨st, mc, cr, rfl⟩ := h
  obtain ⟨st', mc', cr', rfl⟩ := h'
  exact ⟨st', mc', cr', rfl⟩

theorem Super.Like.layout {sb' : Super} (h : sb.Like sb') :
    sb'.freeBlocks = sb.freeBlocks ∧ sb'.totalBlocks = sb.totalBlocks ∧
      sb'.dataStart = sb.dataStart ∧ sb'.freelistBlocks = sb.freelistBlocks := by
  obtain ⟨st, mc, c, rfl⟩ := h
  exact ⟨rfl, rfl, rfl, rfl⟩

theorem Super.Like.header {sb' : Super} (h : sb.Like sb') (hh : HeaderOk sb) : HeaderOk sb' := by
  obtain ⟨st, mc, c, rfl⟩ := h
  exact hh

/-- A superblock just written: the backup is a copy of it, and its seals are right. -/
structure Sealed (im : Image) : Prop where
  backup : im.fs.backup = im.fs.super
  backupMac : im.backupMac = im.mac
  fresh : SuperFresh im.fs.super im.mac

section Keyed

variable {mac : Mac}

theorem sealed_superWrite (im : Image) : Sealed (flatfsSuperWrite mac im) := ⟨rfl, rfl, rfl⟩

theorem like_superWrite (im : Image) : im.fs.super.Like (flatfsSuperWrite mac im).fs.super :=
  ⟨_, _, _, rfl⟩

theorem like_superWrite_state (mac : Mac) (im : Image) (st mc : Super → Nat) :
    im.fs.super.Like (flatfsSuperWrite mac (im.onSuper fun sb =>
      { sb with state := st sb, mountCount := mc sb })).fs.super :=
  Super.Like.trans ⟨st im.fs.super, mc im.fs.super, im.fs.super.crc32, rfl⟩ (like_superWrite _)

theorem flatfsJournalReplay_image {e : FlatfsErr}
    (h : flatfsJournalReplay im = some (e, im')) : im' = im := by
  unfold flatfsJournalReplay at h
  split_ifs at h
  · exact (Prod.mk.inj (Option.some.inj h)).2.symm
  · exact (Prod.mk.inj (Option.some.inj h)).2.symm

/-- **What recovery does to the accounting: nothing.** -/
theorem flatfsJournalRecover_ok (h : flatfsJournalRecover mac im = some (.ok, im')) :
    im.fs.super.Like im'.fs.super ∧ im'.fs.group = im.fs.group := by
  unfold flatfsJournalRecover at h
  split at h
  · cases (Prod.mk.inj (Option.some.inj h)).1
  · have hlike := like_superWrite_state mac im (fun sb => sb.state ||| stateReplay) (·.mountCount)
    obtain ⟨im0, him0⟩ : ∃ im0, im0 = flatfsSuperWrite mac
      (im.onSuper fun sb => { sb with state := sb.state ||| stateReplay }) := ⟨_, rfl⟩
    have hgrp : im0.fs.group = im.fs.group := by rw [him0]; rfl
    rw [← him0] at hlike
    simp only [← him0] at h
    split at h
    · cases h
    · rename_i im1 hrep
      obtain rfl := flatfsJournalReplay_image hrep
      obtain rfl := (Prod.mk.inj (Option.some.inj h)).2
      exact ⟨hlike.trans (like_superWrite_state mac (flatfsJournalCheckpoint im1)
        (fun sb => clear32 sb.state (stateDirty ||| stateReplay) ||| stateClean) (·.mountCount)), hgrp⟩
    grind

theorem flatfsJournalInit_image (im : Image) :
    ∃ js, flatfsJournalInit im = { im with js } ∧ js.magic = journalMagic := by
  unfold flatfsJournalInit
  split
  · exact ⟨_, rfl, rfl⟩
  grind

theorem flatfsSuperRead_ok {cap : Nat} (h : flatfsSuperRead mac im cap = (.ok, im')) :
    im'.fs.group = im.fs.group ∧ HeaderOk im'.fs.super ∧
      ((SuperFresh im.fs.super im.mac ∧ im'.fs.super = im.fs.super) ∨
       ((HeaderOk im.fs.super → ¬SuperFresh im.fs.super im.mac) ∧ im.fs.backup.Like im'.fs.super)) := by
  unfold flatfsSuperRead at h
  split at h
  · cases (Prod.mk.inj h).1
  split at h
  · rename_i _ hv
    obtain ⟨hh, hf⟩ := flatfsSuperValidate_ok.mp hv
    grind
  · rename_i _ hv
    rw [flatfsSuperValidate_ok, not_and] at hv
    split at h
    · rename_i hb
      obtain ⟨hh, -⟩ := flatfsSuperValidate_ok.mp hb
      split at h
      · obtain rfl := (Prod.mk.inj h).2
        exact ⟨rfl, hh, .inr ⟨hv, _, _, _, rfl⟩⟩
      · cases (Prod.mk.inj h).1
    grind

/-- What the allocator and the tree ask of a superblock at a mount. -/
def Mountable (sb : Super) : Prop :=
  sb.freelistBlocks < 4294967296 ∧ 0 < sb.btreeRootBlk ∧ sb.btreeRootBlk < sb.totalBlocks

/-- **What a successful mount leaves**: the superblock it trusted up to state, mount count and
    checksum, freshly written, and the groups of the image with every missing one made. -/
theorem flatfsMount_ok {cap : Nat} (h : flatfsMount mac im cap = some (.ok, im')) :
    ∃ im1, flatfsSuperRead mac im cap = (.ok, im1) ∧ im1.fs.super.Like im'.fs.super ∧ Sealed im' ∧
      im'.js.magic = journalMagic ∧ Mountable im'.fs.super ∧
      im'.fs.galloc.ngroups = im'.fs.super.freelistBlocks ∧ ∀ gi, im'.fs.group gi =
        if gi < im'.fs.super.freelistBlocks ∧ (im1.fs.group gi).magic ≠ freelistMagic then
          freshGroup im'.fs.super gi else im1.fs.group gi := by
  unfold flatfsMount at h
  split at h
  · cases (Prod.mk.inj (Option.some.inj h)).1
  split at h
  · rename_i im1 hread
    split at h
    · cases h
    · rename_i im2 hrec
      have hrec' : im1.fs.super.Like im2.fs.super ∧ im2.fs.group = im1.fs.group := by
        split at hrec
        · exact flatfsJournalRecover_ok hrec
        · obtain rfl := (Prod.mk.inj (Option.some.inj hrec)).2
          exact ⟨.refl _, rfl⟩
      generalize him3 : flatfsSuperMarkDirty mac im2 = im3
      have hlike : im2.fs.super.Like im3.fs.super := him3 ▸ like_superWrite_state mac im2
        (fun sb => clear32 sb.state stateClean ||| stateDirty) (fun sb => u32 (sb.mountCount + 1))
      have hseal : Sealed im3 := him3 ▸ sealed_superWrite _
      have hgrp : im3.fs.group = im1.fs.group := hrec'.2 ▸ him3 ▸ rfl
      simp only [him3] at h
      obtain ⟨fs, hinit, h⟩ := Option.map_eq_some_iff.mp h
      split at h
      · rename_i hroot
        obtain rfl := (Prod.mk.inj h).2
        unfold flatfsAllocInit at hinit
        split at hinit
        · rename_i hlt
          obtain rfl := Option.some.inj hinit
          obtain ⟨js, hjs, hmagic⟩ := flatfsJournalInit_image { im3 with fs := _ }
          rw [hjs]
          exact ⟨im1, hread, hrec'.1.trans hlike, ⟨hseal.backup, hseal.backupMac, hseal.fresh⟩, hmagic,
            ⟨hlt, hroot⟩, rfl, fun gi => by rw [← hgrp]⟩
        · cases hinit
      · cases (Prod.mk.inj h).1
    grind
  grind

end Keyed

/-! ## 3. The run up to the crash -/

/-- The calls `flatfs_alloc_block` and `flatfs_free_block`. -/
def singleBlock (_ : FS) : AllocOp → Prop
  | .allocBlock | .freeBlock _ => True
  | .allocBlocks _ | .freeBlocks _ _ => False

/-- The allocations of a log that succeeded. -/
def taken : Log AllocOp (Result (List Nat)) → Nat
  | [] => 0
  | e :: h => match e with
    | (.allocBlock, .ok _) => taken h + 1
    | _ => taken h

/-- The releases of a log that succeeded. -/
def given : Log AllocOp (Result (List Nat)) → Nat
  | [] => 0
  | e :: h => match e with
    | (.freeBlock _, .ok _) => given h + 1
    | _ => given h

/-- A superblock with another count of free blocks. -/
def Super.withFree (sb : Super) (n : Nat) : Super := { sb with freeBlocks := n }

theorem takeBit_super (s : FS) (k : Nat) :
    (s.takeBit k).super = s.super.withFree (s.super.freeBlocks - 1) := rfl

theorem giveBit_super (s : FS) (k : Nat) :
    (s.giveBit k).super = s.super.withFree (u64 (s.super.freeBlocks + 1)) := rfl

theorem takeBit_magic (s : FS) (k gi : Nat) : ((s.takeBit k).group gi).magic = (s.group gi).magic := by
  show (Function.update s.group _ _ gi).magic = _
  grind

theorem giveBit_magic (s : FS) (k gi : Nat) : ((s.giveBit k).group gi).magic = (s.group gi).magic := by
  show (Function.update s.group _ _ gi).magic = _
  grind

/-- **What a run of such calls leaves**: of the superblock only the count of free blocks has moved,
    by the releases less the allocations. -/
structure Since (s0 : FS) (h : Log AllocOp (Result (List Nat))) (s : FS) : Prop where
  inv : AllocInv s
  super : s.super = s0.super.withFree s.super.freeBlocks
  backup : s.backup = s0.backup
  ngroups : s.galloc.ngroups = s0.galloc.ngroups
  magic : ∀ gi < s.galloc.ngroups, (s.group gi).magic = freelistMagic
  count : s.super.freeBlocks + taken h = s0.super.freeBlocks + given h

theorem since_step {s0 s : FS} {h : Log AllocOp (Result (List Nat))} (hS : Since s0 h s)
    (op : AllocOp) (hop : singleBlock s op) : Since s0 ((op, (allocStep s op).1) :: h) (allocStep s op).2 := by
  have hfree : s.super.freeBlocks + 1 < 18446744073709551616 := by
    have := hS.inv.free
    have := hS.inv.covers
    have := hS.inv.ngroupsLt
    omega
  cases op with
  | allocBlock =>
    rcases flatfsAllocBlock_spec hS.inv with ⟨_, he⟩ | ⟨k, _, _, he, hI'⟩
    · simp only [allocStep, he]
      exact ⟨hS.inv, hS.super, hS.backup, hS.ngroups, hS.magic, hS.count⟩
    · simp only [allocStep, he]
      refine ⟨hI', ?_, hS.backup, hS.ngroups, fun gi hgi => ?_, ?_⟩
      · rw [takeBit_super, hS.super]
        rfl
      · exact (takeBit_magic s k gi).trans (hS.magic gi hgi)
      · have := hS.count
        have hpos : s.super.freeBlocks ≠ 0 := fun h0 => by simp [flatfsAllocBlock, h0] at he
        rw [takeBit_super]
        show s.super.freeBlocks - 1 + (taken h + 1) = _ + given h
        omega
  | freeBlock b =>
    rcases flatfsFreeBlock_spec hS.inv b with ⟨_, he, hI'⟩ | ⟨_, e, hne, he⟩
    · simp only [allocStep, he, errAnswer, if_true]
      refine ⟨hI', ?_, hS.backup, hS.ngroups, fun gi hgi => ?_, ?_⟩
      · rw [giveBit_super, hS.super]
        rfl
      · exact (giveBit_magic s _ gi).trans (hS.magic gi hgi)
      · have := hS.count
        rw [giveBit_super, u64_of_lt hfree]
        show s.super.freeBlocks + 1 + taken h = _ + (given h + 1)
        omega
    · simp only [allocStep, he, errAnswer, if_neg hne]
      exact ⟨hS.inv, hS.super, hS.backup, hS.ngroups, hS.magic, hS.count⟩
  | allocBlocks count => exact hop.elim
  | freeBlocks b count => exact hop.elim

/-- The blocks of the data area whose bit is clear. -/
def clearBlocks (s : FS) : Nat := {k ∈ Finset.range s.dataBlocks | s.bitAt k = false}.card

theorem clearBlocks_eq {s : FS} (hI : AllocInv s) : clearBlocks s = s.super.freeBlocks := by
  have hused : s.usedBits = {k ∈ Finset.range s.dataBlocks | ¬s.bitAt k = false} := by
    ext k
    have hcov := hI.covers
    have hin := hI.inRange k
    simp only [mem_usedBits, Finset.mem_filter, Finset.mem_range, Bool.not_eq_false]
    constructor
    · grind
    · grind
  grind [Finset.card_filter_add_card_filter_not, hI.free, clearBlocks]

/-! ## 4. The mount after the crash -/

section Crash

variable {mac mac' : Mac} {im im0 im2 : Image} {cap cap' : Nat} {s : FS}
  {h : Log AllocOp (Result (List Nat))}

section

variable (hm : flatfsMount mac im cap = some (.ok, im0))
include hm

theorem since_mount (hI : AllocInv im0.fs) : Since im0.fs [] im0.fs := by
  obtain ⟨im1, -, -, -, -, -, hng, hgrp⟩ := flatfsMount_ok hm
  refine ⟨hI, rfl, rfl, rfl, fun gi hgi => ?_, rfl⟩
  rw [hgrp]
  rw [hng] at hgi
  by_cases hmg : (im1.fs.group gi).magic = freelistMagic
  · rw [if_neg (fun h => h.2 hmg), hmg]
  · rw [if_pos ⟨hgi, hmg⟩]
    rfl

theorem since_reach (hI : AllocInv im0.fs) (hr : Reach singleBlock allocStep im0.fs h s) : Since im0.fs h s :=
  hr.inv (since_mount hm hI) fun _ _ _ hS hop => since_step hS _ hop

/-- **The count a second mount comes up with**: that of the crash if the live superblock still has
    its checksum, that of the first mount otherwise. The bitmaps are those of the crash. -/
theorem remount_counts (hS : Since im0.fs h s)
    (hm2 : flatfsMount mac' { im0 with fs := s } cap' = some (.ok, im2)) :
    clearBlocks im2.fs = s.super.freeBlocks ∧
      ((SuperFresh s.super im0.mac ∧ im2.fs.super.freeBlocks = s.super.freeBlocks) ∨
       (¬SuperFresh s.super im0.mac ∧ im2.fs.super.freeBlocks = im0.fs.super.freeBlocks)) := by
  obtain ⟨im1, hread, hlike, hseal, -, -, hng, -⟩ := flatfsMount_ok hm
  obtain ⟨im1', hread', hlike', -, -, -, -, hgrp'⟩ := flatfsMount_ok hm2
  obtain ⟨-, hhead, -⟩ := flatfsSuperRead_ok hread
  obtain ⟨hg, -, hwhich⟩ := flatfsSuperRead_ok hread'
  have hhead' : HeaderOk s.super := by
    rw [hS.super]
    exact hlike.header hhead
  obtain ⟨hfree', htot', hdata', hfl'⟩ := hlike'.layout
  -- both copies have the layout of the first mount
  have hsuper : s.super.totalBlocks = im0.fs.super.totalBlocks ∧
      s.super.dataStart = im0.fs.super.dataStart ∧
      s.super.freelistBlocks = im0.fs.super.freelistBlocks := by
    rw [hS.super]
    exact ⟨rfl, rfl, rfl⟩
  have hback : s.backup = im0.fs.super := hS.backup.trans hseal.backup
  have hlay : im2.fs.super.totalBlocks = s.super.totalBlocks ∧
      im2.fs.super.dataStart = s.super.dataStart ∧
      im2.fs.super.freelistBlocks = s.galloc.ngroups := by
    rw [htot', hdata', hfl', hS.ngroups, hng]
    rcases hwhich with ⟨-, he⟩ | ⟨-, hl⟩
    · rw [he]
      exact ⟨rfl, rfl, hsuper.2.2⟩
    · grind [hl.layout]
  have hgroup : im2.fs.group = s.group := by
    funext gi
    rw [hgrp' gi, hg]
    exact if_neg fun hh => hh.2 (hS.magic gi (hlay.2.2 ▸ hh.1))
  refine ⟨?_, ?_⟩
  · rw [← clearBlocks_eq hS.inv]
    unfold clearBlocks FS.dataBlocks FS.bitAt
    rw [hgroup, hlay.1, hlay.2.1]
  · rw [hfree']
    rcases hwhich with ⟨hf, he⟩ | ⟨hf, hl⟩
    · exact .inl ⟨hf, by rw [he]⟩
    · refine .inr ⟨hf hhead', hl.layout.1.trans ?_⟩
      exact congrArg Super.freeBlocks hback

end

theorem flatfsJournalReplay_empty {im : Image} (hmagic : im.js.magic = journalMagic)
    (hlog : im.js.head = im.js.tail) : flatfsJournalReplay im = some (.ok, im) := by
  rw [flatfsJournalReplay, if_neg (not_not.2 hmagic), if_pos hlog]

theorem flatfsJournalRecover_some (hstate : im.fs.super.state &&& stateReplay = 0)
    (hmagic : im.js.magic = journalMagic) (hlog : im.js.head = im.js.tail) :
    ∃ im', flatfsJournalRecover mac im = some (.ok, im') := by
  unfold flatfsJournalRecover
  rw [if_neg (not_not_intro hstate)]
  obtain ⟨im1, him1⟩ : ∃ im1, im1 = flatfsSuperWrite mac
    (im.onSuper fun sb => { sb with state := sb.state ||| stateReplay }) := ⟨_, rfl⟩
  have hjs : im1.js = im.js := him1 ▸ rfl
  simp only [← him1, flatfsJournalReplay_empty (hjs ▸ hmagic) (hjs ▸ hlog)]
  exact ⟨_, rfl⟩

/-- **A mount that reads its superblock and finds the log empty goes through.** -/
theorem flatfsMount_some {im1 : Image} (hcap : ¬cap < blockSize * 32)
    (hread : flatfsSuperRead mac im cap = (.ok, im1)) (hmount : Mountable im1.fs.super)
    (hdirty : im1.fs.super.state &&& stateDirty ≠ 0 → im1.fs.super.state &&& stateReplay = 0 ∧
      im1.js.magic = journalMagic ∧ im1.js.head = im1.js.tail) :
    ∃ im2, flatfsMount mac im cap = some (.ok, im2) := by
  have hrec : ∃ im2, (if im1.fs.super.state &&& stateDirty ≠ 0 then flatfsJournalRecover mac im1
      else some (.ok, im1)) = some (.ok, im2) ∧ im1.fs.super.Like im2.fs.super := by
    split
    · rename_i hd
      obtain ⟨hstate, hmagic, hlog⟩ := hdirty hd
      obtain ⟨im2, h2⟩ := flatfsJournalRecover_some hstate hmagic hlog
      exact ⟨im2, h2, (flatfsJournalRecover_ok h2).1⟩
    · exact ⟨im1, rfl, .refl _⟩
  obtain ⟨im2, h2, hlike⟩ := hrec
  generalize him3 : flatfsSuperMarkDirty mac im2 = im3
  have hlike3 : im1.fs.super.Like im3.fs.super := hlike.trans (him3 ▸ like_superWrite_state mac im2
    (fun sb => clear32 sb.state stateClean ||| stateDirty) (fun sb => u32 (sb.mountCount + 1)))
  have hm3 : Mountable im3.fs.super := by
    obtain ⟨st, mc, c, he⟩ := hlike3
    rw [he]
    exact hmount
  unfold flatfsMount
  simp only [if_neg hcap, hread, h2, him3, flatfsAllocInit, if_pos hm3.1, Option.map_some, if_pos hm3.2]
  exact ⟨_, rfl⟩

theorem flatfsSuperRead_some (im : Image) (cap : Nat) (hcap : ¬cap < blockSize * 4)
    (hback : HeaderOk im.fs.backup ∧ SuperFresh im.fs.backup im.backupMac) :
    ∃ im1, flatfsSuperRead none im cap = (.ok, im1) ∧ im1.js = im.js ∧
      (im1.fs.super = im.fs.super ∨ ∃ c, im1.fs.super = { im.fs.backup with crc32 := c }) := by
  unfold flatfsSuperRead
  rw [if_neg hcap]
  by_cases hv : flatfsSuperValidate im.fs.super im.mac = .ok
  · rw [if_pos hv]
    exact ⟨im, rfl, rfl, .inl rfl⟩
  · rw [if_neg hv, flatfsSuperValidate_ok.mpr hback]
    exact ⟨_, rfl, rfl, .inr ⟨_, rfl⟩⟩

/-- **Without a key, the mount after the crash goes through**, if no replay was under way. -/
theorem remount_some (cap' : Nat) (hm : flatfsMount mac im cap = some (.ok, im0)) (hS : Since im0.fs h s)
    (hcap : blockSize * 32 ≤ cap') (hlog : im0.js.head = im0.js.tail)
    (hstate : im0.fs.super.state &&& stateReplay = 0) :
    ∃ im2, flatfsMount none { im0 with fs := s } cap' = some (.ok, im2) := by
  obtain ⟨im1, hread, hlike, hseal, hmagic, hmt, -, -⟩ := flatfsMount_ok hm
  obtain ⟨-, hhead, -⟩ := flatfsSuperRead_ok hread
  have hback : s.backup = im0.fs.super := hS.backup.trans hseal.backup
  have hgood : HeaderOk s.backup ∧ SuperFresh s.backup im0.backupMac := by
    rw [hback, hseal.backupMac]
    exact ⟨hlike.header hhead, hseal.fresh⟩
  obtain ⟨im1', hread', hjs, hsup⟩ := flatfsSuperRead_some { im0 with fs := s } cap'
    (by unfold blockSize at hcap ⊢; omega) hgood
  have hst : im1'.fs.super.state = im0.fs.super.state ∧ Mountable im1'.fs.super := by
    rcases hsup with he | ⟨c, he⟩
    · rw [he]
      change s.super.state = _ ∧ Mountable s.super
      rw [hS.super]
      exact ⟨rfl, hmt⟩
    · grind [Mountable]
  refine flatfsMount_some (Nat.not_lt.2 hcap) hread' hst.2 fun _ => ?_
  rw [hst.1, hjs]
  exact ⟨hstate, hmagic, hlog⟩

end Crash

/-- **The accounting after a crash**: after a mount of any image and any calls of
    `flatfs_alloc_block` and `flatfs_free_block`, a mount of what the crash left comes up with a
    count that fits the bitmaps exactly if as many blocks were released as allocated, or the
    checksum of the live superblock happens not to see the change. Without a key, and with no
    replay under way, that mount does go through. -/
theorem crash_accounting_iff (mac mac' : Mac) (im im0 : Image)
    (cap cap' : Nat) (h : Log AllocOp (Result (List Nat))) (s : FS)
    (hm : flatfsMount mac im cap = some (.ok, im0)) (hI : AllocInv im0.fs)
    (hr : Reach singleBlock allocStep im0.fs h s) :
    (∀ im2, flatfsMount mac' { im0 with fs := s } cap' = some (.ok, im2) →
      (im2.fs.super.freeBlocks = clearBlocks im2.fs ↔ taken h = given h ∨ SuperFresh s.super im0.mac)) ∧
    (mac' = none → blockSize * 32 ≤ cap' → im0.js.head = im0.js.tail → im0.fs.super.state &&& stateReplay = 0 →
      ∃ im2, flatfsMount mac' { im0 with fs := s } cap' = some (.ok, im2)) := by
  have hS := since_reach hm hI hr
  refine ⟨fun im2 hm2 => ?_, ?_⟩
  · obtain ⟨hclear, hwhich⟩ := remount_counts hm hS hm2
    have hcount := hS.count
    grind
  · rintro rfl hcap hlog hstate
    exact remount_some cap' hm hS hcap hlog hstate

/-! ## 5. A device of 1100 blocks -/

theorem length_leBytes (n v : Nat) : (leBytes n v).length = n := by simp [leBytes]

theorem take_pad {front tail : Text} {a b t : Nat} (ht : front.length + a = t) :
    (front ++ List.replicate (a + b) 0 ++ tail).take t = front ++ List.replicate a 0 := by
  rw [← replicate_append_replicate, ← append_assoc, append_assoc _ (List.replicate b 0),
    take_append_of_le_length (by simp [ht]), take_of_length_le (by simp [ht])]

theorem superBytes_zero (hl : sb.label.length = 64) : superBytes sb 0 = sb.bytes := by
  have hpad : (3800 : Nat) = 3792 + 8 := rfl
  have h8 : leBytes 8 (0 : UInt64).toNat = List.replicate 8 0 := by decide
  unfold superBytes Super.bytes
  rw [hpad, take_pad, h8, append_assoc _ (List.replicate 3792 0), replicate_append_replicate]
  simp only [length_append, length_leBytes, hl]

/-- A formatted and never mounted device of 1100 blocks. -/
def image1100 : Image :=
  { fs := formatted1100 fun _ => {}, mac := 0, backupMac := 0, js := {} }

theorem flatfsSuperUpdateCrc_fresh (hl : sb.label.length = 64) : SuperFresh (flatfsSuperUpdateCrc sb) 0 := by
  unfold SuperFresh
  rw [superBytes_zero (by exact hl)]
  rfl

theorem read_1100 : flatfsSuperRead none image1100 4505600 = (.ok, image1100) := by
  have hvalid : flatfsSuperValidate image1100.fs.super image1100.mac = .ok := by
    refine flatfsSuperValidate_ok.mpr ⟨⟨rfl, rfl, rfl, rfl, ?_⟩, flatfsSuperUpdateCrc_fresh ?_⟩
    · decide
    · decide
  unfold flatfsSuperRead
  rw [if_neg (by decide), if_pos hvalid]
  rfl

/-- The image after its first mount. -/
def mountedImage : Image :=
  let im := flatfsSuperMarkDirty none image1100
  flatfsJournalInit { im with fs :=
    { im.fs with
      galloc := { ngroups := 1, groupHint := 0 }
      group := (mounted1100 fun _ => {}).group } }

theorem mount_1100 : flatfsMount none image1100 4505600 = some (.ok, mountedImage) := by
  unfold flatfsMount
  have hclean : ¬image1100.fs.super.state &&& stateDirty ≠ 0 := by decide
  rw [if_neg (by decide), read_1100]
  simp only [if_neg hclean]
  have hinit : flatfsAllocInit (flatfsSuperMarkDirty none image1100).fs =
      some { (flatfsSuperMarkDirty none image1100).fs with
        galloc := { ngroups := 1, groupHint := 0 }
        group := (mounted1100 fun _ => {}).group } := rfl
  rw [hinit, Option.map_some, if_pos ⟨by decide, by decide⟩]
  rfl

theorem allocInv_mountedImage : AllocInv mountedImage.fs :=
  allocInv_1100.congr rfl rfl rfl rfl rfl

/-- The image after its first allocation. -/
def allocated1100 : FS := (flatfsAllocBlock mountedImage.fs).2

theorem alloc_1100 : flatfsAllocBlock mountedImage.fs = (.ok 1034, allocated1100) := by
  have h : (flatfsAllocBlock mountedImage.fs).1 = .ok 1034 := by decide +kernel
  rw [allocated1100, ← h]

theorem reach_allocated1100 : Reach singleBlock allocStep mountedImage.fs [(.allocBlock, .ok [1034])] allocated1100 :=
  Reach.next .start trivial (by simp only [allocStep, alloc_1100, Except.map])

/-- **One allocation, a crash and a mount**: the superblock counts 66 free blocks where the bitmaps
    have 65. -/
theorem crash_accounting_lost : ∃ b im2, flatfsMount none image1100 4505600 = some (.ok, mountedImage) ∧
    flatfsAllocBlock mountedImage.fs = (.ok b, allocated1100) ∧
    flatfsMount none { mountedImage with fs := allocated1100 } 4505600 = some (.ok, im2) ∧
    im2.fs.super.freeBlocks = 66 ∧ clearBlocks im2.fs = 65 := by
  have hS := since_reach mount_1100 allocInv_mountedImage reach_allocated1100
  obtain ⟨im2, hm2⟩ := remount_some 4505600 mount_1100 hS (by decide) rfl rfl
  obtain ⟨hclear, hwhich⟩ := remount_counts mount_1100 hS hm2
  have h65 : allocated1100.super.freeBlocks = 65 := by decide +kernel
  have hfresh : SuperFresh mountedImage.fs.super mountedImage.mac :=
    (flatfsMount_ok mount_1100).elim fun _ h => h.2.2.1.fresh
  have hstale : ¬SuperFresh allocated1100.super mountedImage.mac := by
    have hkeep : ∀ (sb : Super) n, (sb.withFree n).crc32 = sb.crc32 := fun _ _ => rfl
    have hcrc : allocated1100.super.crc32 = mountedImage.fs.super.crc32 := by rw [hS.super, hkeep]
    have hne : flatfsCrc32 (superBytes { allocated1100.super with crc32 := 0 } mountedImage.mac) ≠
        flatfsCrc32 (superBytes { mountedImage.fs.super with crc32 := 0 } mountedImage.mac) := by
      rw [flatfsCrc32_eq, flatfsCrc32_eq]
      decide +kernel
    exact fun hf => hne (hf.trans (hcrc.trans hfresh.symm))
  refine ⟨1034, im2, mount_1100, alloc_1100, hm2, ?_, hclear.trans h65⟩
  rcases hwhich with ⟨hf, -⟩ | ⟨-, he⟩
  · exact absurd hf hstale
  · exact he

/-- The theorem at the same image: after the allocation and the release of one block, the mount that
    follows the crash counts right. -/
theorem crash_accounting_iff_back : ∃ b s im2,
    Reach singleBlock allocStep mountedImage.fs [(.freeBlock b, .ok []), (.allocBlock, .ok [b])] s ∧
    flatfsMount none { mountedImage with fs := s } 4505600 = some (.ok, im2) ∧
    im2.fs.super.freeBlocks = clearBlocks im2.fs := by
  have h2 := reach_allocated1100.eval (i := .freeBlock 1034) (o := .ok []) trivial (by decide +kernel)
  obtain ⟨hiff, hsome⟩ := crash_accounting_iff none none image1100 mountedImage 4505600 4505600 _ _
    mount_1100 allocInv_mountedImage h2
  obtain ⟨im2, hm2⟩ := hsome rfl (by decide) rfl rfl
  exact ⟨_, _, im2, h2, hm2, (hiff im2 hm2).mpr (.inl rfl)⟩

end Kobalt.Flatfs
