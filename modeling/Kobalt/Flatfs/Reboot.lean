/-
  Subject: WHAT A REBOOT KEEPS (`flatfs_unmount`, `flatfs_mount` under another session key).

  The superblock and the blocks of checksummed files carry a keyed code, and its key is that of the
  session (`tykid_session_key_ptr`, with `ty_siphash24`). The next session has another key, so the codes of the last one
  do not pass, unless they are zero or happen to be the same under both keys.
-/
import Kobalt.Flatfs.Create
import Kobalt.Flatfs.Mount
import Kobalt.Flatfs.Truncate
import Kobalt.Tykid.Gate

namespace Kobalt.Flatfs

open List

/-! ## 1. A session -/

def stateArbiter : Nat := 0x0010

section Session

variable (mac : Mac)

def flatfsSuperMarkClean (im : Image) : Image :=
  flatfsSuperWrite mac (im.onSuper fun sb => { sb with state := clear32 sb.state stateDirty ||| stateClean })

/-- What `flatfs_handoff_tick` does to the image: it hands over (`flatfs_handoff_request`), takes back
    (`flatfs_handoff_reclaim`), or does nothing. Which of them is up to the score of the monitor. -/
def flatfsHandoffTick (tick : Option Bool) (im : Image) : Image :=
  match tick with
  | none => im
  | some true => flatfsSuperWrite mac (im.onSuper fun sb => { sb with state := sb.state ||| stateArbiter })
  | some false => flatfsSuperWrite mac ((flatfsJournalCheckpoint im).onSuper fun sb =>
      { sb with state := clear32 sb.state stateArbiter })

/-- `b_read`, and `flatfs_read` at the position of a handle. -/
def readFile (s : FS) (ino off len : Nat) : Result Text :=
  match flatfsInodeRead s ino with
  | .error e => .error e
  | .ok i => flatfsFilePread mac s i off len

def bWrite (im : Image) (ino off : Nat) (buf : Text) : Option (Result Nat) × Image :=
  match flatfsInodeRead im.fs ino with
  | .error e => (some (.error e), im)
  | .ok i =>
    match flatfsFilePwrite mac im.fs i off buf with
    | none => (none, im)
    | some (.error e, _, s) => (some (.error e), { im with fs := s })
    | some (.ok put, i, s) =>
      match flatfsInodeWrite s i with
      | (.ok, s) => (some (.ok put), { im with fs := s })
      | (e, s) => (some (.error e), { im with fs := s })

/-- `flatfs_write` on a handle open for writing whose seal passes; `ts` is what `flatfs_tykid_entropy` gives. -/
def flatfsWrite (im : Image) (ino : Nat) (append : Bool) (pos ts : Nat) (buf : Text) (tick : Option Bool) :
    Option (Result Nat) × Image :=
  match flatfsInodeRead im.fs ino with
  | .error e => (some (.error e), im)
  | .ok i =>
    match flatfsFilePwrite mac im.fs i (if append then i.size else pos) buf with
    | none => (none, im)
    | some (.error e, _, s) => (some (.error e), flatfsHandoffTick mac tick { im with fs := s })
    | some (.ok nw, i, s) =>
      let i := { i with mtimeNs := if ts ≠ 0 then ts else i.mtimeNs, ctimeNs := if ts ≠ 0 then ts else i.mtimeNs }
      (some (.ok nw), flatfsHandoffTick mac tick { im with fs := (flatfsInodeWrite s i).2 })

/-- The writes of a session. -/
inductive FileWrite where
  | bridge (ino off : Nat) (buf : Text)
  | handle (ino : Nat) (append : Bool) (pos ts : Nat) (buf : Text) (tick : Option Bool)

def writeStep (im : Image) : FileWrite → Option (Result Nat) × Image
  | .bridge ino off buf => bWrite mac im ino off buf
  | .handle ino append pos ts buf tick => flatfsWrite mac im ino append pos ts buf tick

/-- The write succeeds. -/
def WriteOk (im : Image) (w : FileWrite) : Prop := ∃ n, (writeStep mac im w).1 = some (.ok n)

/-- What an unmount puts into the superblock. -/
structure Counters where
  readOps : Nat
  writeOps : Nat
  allocOps : Nat
  journalCommits : Nat
  tykidSeq : Nat

/-- `flatfs_unmount`. The inode cache is empty: nothing inserts into it. -/
def flatfsUnmount (im : Image) (c : Counters) (tick : Option Bool) : Image :=
  let im := (flatfsJournalCheckpoint im).onSuper fun sb => { sb with
    monReadOps := c.readOps, monWriteOps := c.writeOps, monAllocOps := c.allocOps
    monJournalCommits := c.journalCommits }
  let im := flatfsHandoffTick mac tick im
  flatfsSuperMarkClean mac (im.onSuper fun sb => { sb with tykidSeq := c.tykidSeq })

end Session

/-! ## 2. What a session leaves alone -/

/-- The fields of a superblock that no write touches. -/
def Super.fixed (sb : Super) : List Nat × Text :=
  ([sb.magic, sb.version, sb.blockSize, sb.inodeSize, sb.totalBlocks, sb.totalInodes, sb.freelistBlocks,
    sb.btreeRootBlk], sb.label)

theorem Super.totalInodes_of_fixed {sb sb' : Super} (h : sb'.fixed = sb.fixed) : sb'.totalInodes = sb.totalInodes :=
  congrArg (fun x => x.1.getD 5 0) h

theorem Super.label_of_fixed {sb sb' : Super} (h : sb'.fixed = sb.fixed) : sb'.label = sb.label := congrArg Prod.snd h

section Fixed

variable {mac : Mac} {s : FS} {i : Inode}

theorem flatfsAllocBlock_fixed (s : FS) : (flatfsAllocBlock s).2.super.fixed = s.super.fixed := by
  unfold flatfsAllocBlock
  split
  · rfl
  · split <;> rfl

theorem inodeSlot_fixed (k : Nat) (alloc : Bool) : (inodeSlot s i k alloc).2.2.super.fixed = s.super.fixed := by
  grind [flatfsAllocBlock_fixed, inodeSlot]

theorem blockSlot_fixed (p j : Nat) (alloc : Bool) : (blockSlot s i p j alloc).2.2.super.fixed = s.super.fixed := by
  have ha := flatfsAllocBlock_fixed s
  unfold blockSlot
  split
  · split
    · generalize flatfsAllocBlock s = r at ha ⊢
      rcases r with ⟨e | b, s'⟩ <;> exact ha
    · rfl
  · rfl

theorem walkOn_fixed {r : Level} {next : FS → Inode → Nat → Level} (hr : r.2.2.super.fixed = s.super.fixed)
    (hnext : ∀ s i p, (next s i p).2.2.super.fixed = s.super.fixed) : (walkOn r next).2.2.super.fixed = s.super.fixed := by
  obtain ⟨e | _ | p, i', s'⟩ := r
  · exact hr
  · exact hr
  · exact (hnext s' i' p).trans hr

theorem mapBlock_fixed (s : FS) (i : Inode) (lblk : Nat) (alloc : Bool) : (mapBlock s i lblk alloc).2.2.super.fixed = s.super.fixed := by
  show (mapWalk s i lblk alloc).2.2.super.fixed = _
  grind [mapWalk, inodeSlot_fixed, walkOn_fixed, blockSlot_fixed]

theorem flatfsFileWriteBlk_fixed (mac : Mac) (s : FS) (i : Inode) (lblk : Nat) (data : Bytes) :
    (flatfsFileWriteBlk mac s i lblk data).2.2.super.fixed = s.super.fixed := by
  have hm := mapBlock_fixed s i lblk true
  unfold flatfsFileWriteBlk
  generalize mapBlock s i lblk true = r at hm ⊢
  rcases r with ⟨e | b, i', s'⟩ <;> exact hm

theorem flatfsInodeWrite_fixed (s : FS) (i : Inode) : (flatfsInodeWrite s i).2.super.fixed = s.super.fixed := by
  unfold flatfsInodeWrite
  split <;> rfl

theorem pwriteLoop_fixed (mac : Mac) (off : Nat) (buf : Text) : ∀ (fuel : Nat) (s : FS) (i : Inode) (done : Nat),
    (pwriteLoop mac off buf fuel s i done).2.2.super.fixed = s.super.fixed := by
  intro fuel
  induction fuel with
  | zero => exact fun _ _ _ => rfl
  | succ fuel ih => grind [pwriteLoop, flatfsFileWriteBlk_fixed]

theorem pwriteBlocks_fixed (off : Nat) (buf : Text) :
    (pwriteBlocks mac s i off buf).2.2.super.fixed = s.super.fixed := by
  grind [pwriteLoop_fixed, pwriteBlocks, flatfsInodeWrite_fixed]

theorem flatfsInlineToBlock_fixed {r : FlatfsErr × Inode × FS} (h : flatfsInlineToBlock s i = some r) :
    r.2.2.super.fixed = s.super.fixed := by
  have ha := flatfsAllocBlock_fixed s
  unfold flatfsInlineToBlock at h
  split at h
  · obtain rfl := Option.some.inj h
    rfl
  · split at h
    · grind
    · rename_i b s' he
      rw [he] at ha
      split at h
      · cases h
      · obtain rfl := Option.some.inj h
        exact (flatfsInodeWrite_fixed _ _).trans ha

theorem flatfsFilePwrite_fixed {off : Nat} {buf : Text} {r : Result Nat × Inode × FS}
    (h : flatfsFilePwrite mac s i off buf = some r) : r.2.2.super.fixed = s.super.fixed := by
  unfold flatfsFilePwrite at h
  split at h
  · split at h
    · obtain ⟨x, -, rfl⟩ := Option.map_eq_some_iff.1 h
      rfl
    · split at h
      · cases h
      · rename_i i' s' he
        obtain rfl := Option.some.inj h
        exact (pwriteBlocks_fixed off buf).trans (flatfsInlineToBlock_fixed he)
      · rename_i he
        obtain rfl := Option.some.inj h
        exact flatfsInlineToBlock_fixed he
  grind [pwriteBlocks_fixed]

theorem superWrite_files (im : Image) :
    (flatfsSuperWrite mac im).fs.blk = im.fs.blk ∧ (flatfsSuperWrite mac im).fs.inode = im.fs.inode := ⟨rfl, rfl⟩

theorem superWrite_super (im : Image) : (flatfsSuperWrite mac im).fs.super.fixed = im.fs.super.fixed ∧
    (flatfsSuperWrite mac im).fs.super.state = im.fs.super.state := ⟨rfl, rfl⟩

theorem flatfsHandoffTick_files (mac : Mac) (tick : Option Bool) (im : Image) :
    (flatfsHandoffTick mac tick im).fs.blk = im.fs.blk ∧ (flatfsHandoffTick mac tick im).fs.inode = im.fs.inode := by
  cases tick with
  | none => exact ⟨rfl, rfl⟩
  | some b =>
    cases b with
    | false => exact superWrite_files _
    | true => exact superWrite_files _

theorem flatfsHandoffTick_fixed (tick : Option Bool) (im : Image) :
    (flatfsHandoffTick mac tick im).fs.super.fixed = im.fs.super.fixed := by
  rcases tick with _ | _ | _ <;> rfl

theorem writeStep_fixed (mac : Mac) (im : Image) (w : FileWrite) :
    (writeStep mac im w).2.fs.super.fixed = im.fs.super.fixed := by
  cases w with
  | bridge ino off buf =>
    show (bWrite mac im ino off buf).2.fs.super.fixed = _
    unfold bWrite
    split
    · rfl
    · split
      · rfl
      · rename_i he
        exact flatfsFilePwrite_fixed he
      · rename_i put i' s' he
        have hw := flatfsInodeWrite_fixed s' i'
        split
        · rename_i he'
          rw [he'] at hw
          exact hw.trans (flatfsFilePwrite_fixed he)
        · rename_i he'
          rw [he'] at hw
          exact hw.trans (flatfsFilePwrite_fixed he)
  | handle ino append pos ts buf tick =>
    show (flatfsWrite mac im ino append pos ts buf tick).2.fs.super.fixed = _
    unfold flatfsWrite
    split
    · rfl
    · split
      · rfl
      · rename_i he
        exact (flatfsHandoffTick_fixed _ _).trans (flatfsFilePwrite_fixed he)
      · rename_i nw i' s' he
        exact (flatfsHandoffTick_fixed _ _).trans
          ((flatfsInodeWrite_fixed _ _).trans (flatfsFilePwrite_fixed he))

end Fixed

/-! ## 3. Reading under another key -/

section Reading

variable {mac mac' : Mac} {s s' : FS} {i : Inode}

/-- The code of the block behind a logical block passes; a hole and a file without checksums have none. -/
def SealPasses (mac : Mac) (s : FS) (i : Inode) (lb : Nat) : Prop :=
  i.hasCrc = true → mappedTo s i lb ≠ 0 → flatfsTykidMacOk mac (s.blk (mappedTo s i lb)) 4096 = true

theorem flatfsFileReadBlk_ok {lb : Nat} {b : Bytes} : flatfsFileReadBlk mac s i lb = .ok b ↔
    ∃ pb, (mapBlock s i lb false).1 = .ok pb ∧ (if pb = 0 then zeroBytes else s.blk pb) = b ∧
      (i.hasCrc = true → pb ≠ 0 →
        flatfsBlockCrcOk (s.blk pb) 4096 = true ∧ flatfsTykidMacOk mac (s.blk pb) 4096 = true) := by
  unfold flatfsFileReadBlk
  grind

/-- A block that one key reads is read under another exactly if its code passes there, and alike. -/
theorem flatfsFileReadBlk_iff (mac' : Mac) (hblk : s'.blk = s.blk) {lb : Nat} {b : Bytes}
    (h : flatfsFileReadBlk mac s i lb = .ok b) :
    (flatfsFileReadBlk mac' s' i lb = .ok b ↔ SealPasses mac' s i lb) ∧
      ∀ b', flatfsFileReadBlk mac' s' i lb = .ok b' → b' = b := by
  obtain ⟨pb, hm, hb, hok⟩ := flatfsFileReadBlk_ok.1 h
  have hmt : mappedTo s i lb = pb := by
    unfold mappedTo
    rw [hm]
  unfold SealPasses
  rw [hmt]
  refine ⟨⟨fun h' hc h0 => ?_, fun hp => ?_⟩, fun b' h' => ?_⟩
  · obtain ⟨pb', hm', -, hok'⟩ := flatfsFileReadBlk_ok.1 h'
    grind [mapBlock_congr]
  · refine flatfsFileReadBlk_ok.2 ⟨pb, by rw [mapBlock_congr hblk, hm], ?_, fun hc h0 => ?_⟩
    · rw [hblk]
      exact hb
    grind
  · obtain ⟨pb', hm', hb', -⟩ := flatfsFileReadBlk_ok.1 h'
    grind [mapBlock_congr]

theorem preadLoop_transfer {off len : Nat} (h : ∀ p < off + len, ∀ b,
    flatfsFileReadBlk mac s i (u64 p / 4096) = .ok b → flatfsFileReadBlk mac' s' i (u64 p / 4096) = .ok b) :
    ∀ (fuel : Nat) (out r : Text), preadLoop mac s i off len fuel out = .ok r →
      preadLoop mac' s' i off len fuel out = .ok r := by
  intro fuel
  induction fuel with
  | zero => exact fun _ _ hr => hr
  | succ fuel ih =>
    intro out r hr
    unfold preadLoop at hr ⊢
    grind

theorem flatfsFilePread_one (hin : i.isInline = false) {off : Nat} (hoff : off < i.size) :
    (∃ r, flatfsFilePread mac s i off 1 = .ok r) ↔ ∃ b, flatfsFileReadBlk mac s i (u64 off / 4096) = .ok b := by
  unfold flatfsFilePread
  rw [hin, if_neg (by decide), if_neg (by omega)]
  have hlen : min 1 (i.size - off) = 1 := by omega
  simp only [hlen]
  unfold preadLoop
  rw [if_pos (by decide)]
  dsimp only
  rw [length_nil, Nat.add_zero]
  cases flatfsFileReadBlk mac s i (u64 off / 4096) with
  | error e => simp
  | ok b => simp [preadLoop]

/-- **Every file that one key reads is read alike under another**, exactly if the codes pass of all blocks that it
    reads. -/
theorem readFile_transfer_iff (hblk : s'.blk = s.blk) (hino : s'.inode = s.inode)
    (htot : s'.super.totalInodes = s.super.totalInodes) :
    (∀ ino off len r, readFile mac s ino off len = .ok r → readFile mac' s' ino off len = .ok r) ↔
    ∀ ino i, flatfsInodeRead s ino = .ok i → i.isInline = false → ∀ off < i.size, ∀ b,
      flatfsFileReadBlk mac s i (u64 off / 4096) = .ok b → SealPasses mac' s i (u64 off / 4096) := by
  have hread : ∀ ino, flatfsInodeRead s' ino = flatfsInodeRead s ino := by
    intro ino
    unfold flatfsInodeRead
    rw [hino, htot]
  constructor
  · intro h ino i hi hin off hoff b hb
    obtain ⟨r, hr⟩ := (flatfsFilePread_one hin hoff).2 ⟨b, hb⟩
    have hr' := h ino off 1 r (by rw [readFile, hi]; exact hr)
    rw [readFile, hread, hi] at hr'
    obtain ⟨b', hb'⟩ := (flatfsFilePread_one hin hoff).1 ⟨r, hr'⟩
    grind [flatfsFileReadBlk_iff]
  · intro h ino off len r hr
    unfold readFile at hr ⊢
    rw [hread]
    cases hi : flatfsInodeRead s ino with
    | error e =>
      rw [hi] at hr
      cases hr
    | ok i =>
      rw [hi] at hr
      dsimp only at hr ⊢
      unfold flatfsFilePread at hr ⊢
      cases hin : i.isInline with
      | true => grind
      | false =>
        rw [hin, if_neg Bool.false_ne_true] at hr
        rw [if_neg Bool.false_ne_true]
        split at hr
        · grind
        · rename_i hlt
          rw [if_neg hlt]
          dsimp only at hr ⊢
          refine preadLoop_transfer (fun p hp b hb => ?_) _ _ _ hr
          exact (flatfsFileReadBlk_iff mac' hblk hb).1.2 (h ino i hi hin p (by omega) b hb)

end Reading

/-! ## 4. The next session -/

section Next

variable {mac mac' : Mac} {im u : Image} {cap : Nat}

/-- A mounted image: what a mount insists on, and every write keeps. -/
structure Mounted (im : Image) : Prop where
  header : HeaderOk im.fs.super
  mountable : Mountable im.fs.super

theorem mounted_of_mount {im0 : Image} (h : flatfsMount mac im cap = some (.ok, im0)) : Mounted im0 := by
  obtain ⟨im1, hread, hlike, -, -, hmt, -, -⟩ := flatfsMount_ok h
  obtain ⟨-, hhead, -⟩ := flatfsSuperRead_ok hread
  exact ⟨hlike.header hhead, hmt⟩

theorem Mounted.of_fixed (h : Mounted im) (hf : u.fs.super.fixed = im.fs.super.fixed) : Mounted u := by
  unfold Super.fixed at hf
  simp only [Prod.mk.injEq, List.cons.injEq] at hf
  obtain ⟨⟨h1, h2, h3, h4, h5, -, h6, h7, -⟩, -⟩ := hf
  obtain ⟨hh, hm⟩ := h
  refine ⟨?_, ?_⟩
  · grind [HeaderOk]
  grind [Mountable]

theorem mounted_reach {im0 : Image} {h : List (FileWrite × Option (Result Nat))} (hm : Mounted im0)
    (hr : Reach (WriteOk mac) (writeStep mac) im0 h im) : Mounted im :=
  hr.invState hm fun s w hs _ => hs.of_fixed (writeStep_fixed mac s w)

/-- **What an unmount leaves**: the files as they are, and a clean superblock with its checksum. -/
structure Unmounted (im u : Image) : Prop where
  blk : u.fs.blk = im.fs.blk
  inode : u.fs.inode = im.fs.inode
  fixed : u.fs.super.fixed = im.fs.super.fixed
  fresh : SuperFresh u.fs.super u.mac
  clean : u.fs.super.state &&& stateDirty = 0

theorem unmounted_unmount (mac : Mac) (im : Image) (c : Counters) (tick : Option Bool) :
    Unmounted im (flatfsUnmount mac im c tick) := by
  have hclean : ∀ st, (clear32 st stateDirty ||| stateClean) &&& stateDirty = 0 := by
    intro st
    have hmask : (0xFFFFFFFF ^^^ stateDirty) &&& stateDirty = 0 := by decide
    unfold clear32
    rw [Nat.and_or_distrib_right, Nat.and_assoc, hmask, Nat.and_zero]
    decide
  obtain ⟨t, ht⟩ : ∃ t, t = flatfsHandoffTick mac tick ((flatfsJournalCheckpoint im).onSuper fun sb => { sb with
    monReadOps := c.readOps, monWriteOps := c.writeOps, monAllocOps := c.allocOps
    monJournalCommits := c.journalCommits }) := ⟨_, rfl⟩
  have hkept : t.fs.blk = im.fs.blk ∧ t.fs.inode = im.fs.inode ∧ t.fs.super.fixed = im.fs.super.fixed := by
    rw [ht]
    have hfiles := flatfsHandoffTick_files mac tick ((flatfsJournalCheckpoint im).onSuper fun sb => { sb with
      monReadOps := c.readOps, monWriteOps := c.writeOps, monAllocOps := c.allocOps
      monJournalCommits := c.journalCommits })
    exact ⟨hfiles.1, hfiles.2, flatfsHandoffTick_fixed _ _⟩
  unfold flatfsUnmount flatfsSuperMarkClean
  dsimp only
  rw [← ht]
  refine ⟨(superWrite_files _).1.trans hkept.1, (superWrite_files _).2.trans hkept.2.1,
    (superWrite_super _).1.trans hkept.2.2, (sealed_superWrite _).fresh, ?_⟩
  rw [(superWrite_super _).2]
  exact hclean _

section

variable (hcap : blockSize * 32 ≤ cap) (hm : Mounted u) (hf : SuperFresh u.fs.super u.mac)
include hcap hm hf

theorem flatfsSuperRead_fresh :
    flatfsSuperRead mac u cap = if superMacOk mac u.fs.super u.mac then (.ok, u) else (.crc, u) := by
  unfold flatfsSuperRead
  rw [if_neg (by simp only [blockSize] at hcap ⊢; omega), if_pos (flatfsSuperValidate_ok.2 ⟨hm.header, hf⟩)]

theorem mount_refused
    (hbad : superMacOk mac u.fs.super u.mac = false) : flatfsMount mac u cap = some (.crc, u) := by
  unfold flatfsMount
  rw [if_neg (Nat.not_lt.2 hcap), flatfsSuperRead_fresh hcap hm hf, hbad, if_neg Bool.false_ne_true]

omit hcap hm hf in
theorem markDirty_fixed (mac : Mac) (u : Image) :
    (flatfsSuperMarkDirty mac u).fs.super.fixed = u.fs.super.fixed := rfl

/-- **The mount of a clean image whose code passes** changes neither the inodes nor the blocks of files. -/
theorem mount_accepted
    (hc : u.fs.super.state &&& stateDirty = 0) (hok : superMacOk mac u.fs.super u.mac = true) :
    ∃ im2, flatfsMount mac u cap = some (.ok, im2) ∧ im2.fs.blk = u.fs.blk ∧ im2.fs.inode = u.fs.inode ∧
      im2.fs.super = (flatfsSuperMarkDirty mac u).fs.super := by
  generalize hd : flatfsSuperMarkDirty mac u = d
  have hfix : d.fs.super.fixed = u.fs.super.fixed := hd ▸ markDirty_fixed mac u
  have hdm : Mounted d := hm.of_fixed hfix
  have hblk : d.fs.blk = u.fs.blk := hd ▸ rfl
  have hino : d.fs.inode = u.fs.inode := hd ▸ rfl
  have hjinit : ∀ x : Image, (flatfsJournalInit x).fs = x.fs := by
    intro x
    obtain ⟨js, hjs, -⟩ := flatfsJournalInit_image x
    rw [hjs]
  unfold flatfsMount
  rw [if_neg (Nat.not_lt.2 hcap), flatfsSuperRead_fresh hcap hm hf, if_pos hok]
  simp only [if_neg (not_not.2 hc), hd, flatfsAllocInit, if_pos hdm.mountable.1, Option.map_some,
    if_pos hdm.mountable.2]
  grind

end

end Next

open Tykid

/-- **The reboot.** After any successful writes of a session and its unmount, a session with another key mounts the
    image and reads every file as the first one did, exactly if the code in the superblock is zero or passes under
    the second key, and so do the codes of all blocks of files that the first session reads. -/
theorem reboot_reads_back_iff (key key' : Text) (im0 im : Image) (cap : Nat)
    (h : List (FileWrite × Option (Result Nat))) (c : Counters) (tick : Option Bool)
    (hcap : blockSize * 32 ≤ cap) (hm : Mounted im0)
    (hr : Reach (WriteOk (some (tySiphash24 key))) (writeStep (some (tySiphash24 key))) im0 h im) :
    (∃ im2, flatfsMount (some (tySiphash24 key')) (flatfsUnmount (some (tySiphash24 key)) im c tick) cap =
        some (.ok, im2) ∧ ∀ ino off len r, readFile (some (tySiphash24 key)) im.fs ino off len = .ok r →
        readFile (some (tySiphash24 key')) im2.fs ino off len = .ok r) ↔
    superMacOk (some (tySiphash24 key')) (flatfsUnmount (some (tySiphash24 key)) im c tick).fs.super
        (flatfsUnmount (some (tySiphash24 key)) im c tick).mac = true ∧
      ∀ ino i, flatfsInodeRead im.fs ino = .ok i → i.isInline = false → ∀ off < i.size, ∀ b,
        flatfsFileReadBlk (some (tySiphash24 key)) im.fs i (u64 off / 4096) = .ok b →
          SealPasses (some (tySiphash24 key')) im.fs i (u64 off / 4096) := by
  have hu := unmounted_unmount (some (tySiphash24 key)) im c tick
  generalize flatfsUnmount (some (tySiphash24 key)) im c tick = u at hu ⊢
  have hmu : Mounted u := (mounted_reach hm hr).of_fixed hu.fixed
  cases hmac : superMacOk (some (tySiphash24 key')) u.fs.super u.mac with
  | false =>
    refine iff_of_false (fun ⟨im2, hmount, _⟩ => ?_) fun hc => Bool.false_ne_true hc.1
    grind [mount_refused, hu.fresh]
  | true =>
    obtain ⟨im2, hmount, hblk, hino, hsup⟩ := mount_accepted hcap hmu hu.fresh hu.clean hmac
    have hfix := (congrArg Super.fixed hsup).trans (markDirty_fixed ..)
    rw [hmount, ← readFile_transfer_iff (hblk.trans hu.blk) (hino.trans hu.inode)
      (Super.totalInodes_of_fixed (hfix.trans hu.fixed))]
    grind

/-! ## 5. A device of 1100 blocks -/

/-- The keys of two sessions. -/
def firstKey : Text := List.replicate 32 0
def secondKey : Text := List.replicate 32 1

theorem bytes_take_crc {sb : Super} (hl : sb.label.length = 64) (c : Nat) :
    (Super.bytes { sb with crc32 := c }).take 4084 = sb.bytes.take 4084 := by
  have hpad : (3800 : Nat) = 3792 + 8 := rfl
  unfold Super.bytes
  rw [hpad, take_pad, take_pad]
  · simp only [length_append, length_leBytes, hl]
  · simp only [length_append, length_leBytes, hl]

theorem superWrite_mac (f : Text → UInt64) {im : Image} (hl : im.fs.super.label.length = 64) :
    (flatfsSuperWrite (some f) im).mac = f ((flatfsSuperWrite (some f) im).fs.super.bytes.take 4084) := by
  unfold flatfsSuperWrite superMacSet superUpdateCrc
  dsimp only
  rw [bytes_take_crc hl, bytes_take_crc hl]
  exact congrArg f (bytes_take_crc hl _).symm

/-- The code that an unmount leaves is the one of its superblock under the key of the session. -/
theorem unmount_mac (f : Text → UInt64) {im : Image} (hl : im.fs.super.label.length = 64) (c : Counters)
    (tick : Option Bool) : (flatfsUnmount (some f) im c tick).mac =
      f ((flatfsUnmount (some f) im c tick).fs.super.bytes.take 4084) := by
  have hu := Super.label_of_fixed (unmounted_unmount (some f) im c tick).fixed
  rw [← hu] at hl
  exact superWrite_mac f hl

theorem fresh_1100 : SuperFresh image1100.fs.super image1100.mac := flatfsSuperUpdateCrc_fresh (by decide)

theorem mounted_1100 : Mounted image1100 := ⟨⟨rfl, rfl, rfl, rfl, by decide⟩, by decide, by decide, by decide⟩

/-- The formatted device with an empty inline file in inode 2. -/
def fileInode : Inode := { flatfsInodeInit 2 0x81A4 0 0 with flags := flInline ||| flHascrc }

def fileImage : Image :=
  { image1100 with fs := image1100.fs.setInode 2 fileInode.stored }

/-- The superblock that the first mount of a device and its unmount leave, but for its checksum. -/
def Super.rebooted (sb : Super) : Super := { sb with
  state := stateClean, mountCount := 1, tykidSeq := 0, monReadOps := 0, monWriteOps := 0, monAllocOps := 0
  monJournalCommits := 0 }

def rebootSuper : Super := image1100.fs.super.rebooted

theorem rebootSuper_label : rebootSuper.label.length = 64 := by decide

/-- The whole words of the code, each taken from what is left of the data. -/
def sipWords : Nat → Sip → Text → Sip
  | 0, s, _ => s
  | n + 1, s, p => sipWords n (sipWord s (tyGetU64le p)) (p.drop 8)

theorem foldl_sipWord : ∀ (n : Nat) (s : Sip) (p : Text),
    (List.range n).foldl (fun s i => sipWord s (tyGetU64le (p.drop (8 * i)))) s = sipWords n s p := by
  intro n
  induction n with
  | zero => exact fun _ _ => rfl
  | succ n ih =>
    intro s p
    rw [range_succ_eq_map, foldl_cons, foldl_map, sipWords, ← ih]
    simp only [drop_drop, Nat.mul_succ, Nat.add_comm, Nat.mul_zero, drop_zero]

theorem rebootSuper_codes : tySiphash24 firstKey (rebootSuper.bytes.take 4084) ≠ 0 ∧
    tySiphash24 firstKey (rebootSuper.bytes.take 4084) ≠ tySiphash24 secondKey (rebootSuper.bytes.take 4084) := by
  unfold tySiphash24
  simp only [foldl_sipWord]
  decide +kernel

theorem unmount_rebooted (f : Text → UInt64) {im : Image}
    (h : im.fs.super = (flatfsSuperMarkDirty (some f) image1100).fs.super) :
    ∃ c, (flatfsUnmount (some f) im ⟨0, 0, 0, 0, 0⟩ none).fs.super = { rebootSuper with crc32 := c } := by
  have hs : ∃ c, (flatfsSuperMarkDirty (some f) image1100).fs.super =
    { image1100.fs.super with state := stateDirty, mountCount := 1, crc32 := c } := ⟨_, rfl⟩
  have hstate : clear32 stateDirty stateDirty ||| stateClean = stateClean := by decide
  obtain ⟨c, hs⟩ := hs
  unfold flatfsUnmount flatfsSuperMarkClean flatfsHandoffTick flatfsSuperWrite flatfsJournalCheckpoint Image.onSuper
  unfold superUpdateCrc
  dsimp only
  rw [h, hs]
  dsimp only
  rw [hstate]
  exact ⟨_, rfl⟩

/-- **A reboot under another key**: the device is mounted and unmounted in one session, and the next session refuses
    it. -/
theorem reboot_refused : ∃ im0 u, flatfsMount (some (tySiphash24 firstKey)) image1100 4505600 = some (.ok, im0) ∧
    flatfsUnmount (some (tySiphash24 firstKey)) im0 ⟨0, 0, 0, 0, 0⟩ none = u ∧
    flatfsMount (some (tySiphash24 secondKey)) u 4505600 = some (.crc, u) := by
  have hok : superMacOk (some (tySiphash24 firstKey)) image1100.fs.super image1100.mac = true := rfl
  obtain ⟨im0, hmount, -, -, hsup⟩ :=
    mount_accepted (show blockSize * 32 ≤ 4505600 by decide) mounted_1100 fresh_1100 rfl hok
  refine ⟨im0, _, hmount, rfl, ?_⟩
  have hu := unmounted_unmount (some (tySiphash24 firstKey)) im0 ⟨0, 0, 0, 0, 0⟩ none
  refine mount_refused (by decide) ((mounted_of_mount hmount).of_fixed hu.fixed) hu.fresh ?_
  obtain ⟨c, hc⟩ := unmount_rebooted _ hsup
  have hmac := @unmount_mac (tySiphash24 firstKey) im0 (by rw [hsup]; exact rebootSuper_label) ⟨0, 0, 0, 0, 0⟩ none
  rw [hc, bytes_take_crc rebootSuper_label] at hmac
  unfold superMacOk
  rw [hc, bytes_take_crc rebootSuper_label, hmac]
  grind [rebootSuper_codes]

/-- Another key with the same first half. -/
def halfKey : Text := List.replicate 16 0 ++ List.replicate 16 1

theorem tySiphash24_halfKey : tySiphash24 halfKey = tySiphash24 firstKey := by
  have h0 : tyGetU64le halfKey = tyGetU64le firstKey := by decide
  have h1 : tyGetU64le (halfKey.drop 8) = tyGetU64le (firstKey.drop 8) := by decide
  funext data
  unfold tySiphash24
  rw [h0, h1]

theorem write_file (mac : Mac) {im : Image} (hino : im.fs.inode 2 = fileInode.stored)
    (htot : im.fs.super.totalInodes = 64) : (writeStep mac im (.bridge 2 0 [65])).1 = some (.ok 1) := by
  have hread : flatfsInodeRead im.fs 2 = .ok fileInode.stored :=
    flatfsInodeRead_stored hino (by decide) (by rw [htot]; decide) rfl
  have hwrite : flatfsFilePwrite mac im.fs fileInode.stored 0 [65] = some (.ok 1, { fileInode.stored with
      data := fill fileInode.stored.data 0 1 fun j => [(65 : UInt8)].getD j 0
      size := 1, flags := fileInode.stored.flags ||| flInline }, im.fs) := by
    have hin : fileInode.stored.isInline = true := rfl
    have hsize : fileInode.stored.size = 0 := rfl
    unfold flatfsFilePwrite
    rw [hin, if_pos rfl, if_pos (by decide), flatfsInlineWrite, if_neg (by decide), if_neg (by decide), hsize]
    rfl
  show (bWrite mac im 2 0 [65]).1 = _
  unfold bWrite
  rw [hread]
  dsimp only
  rw [hwrite]
  dsimp only
  unfold flatfsInodeWrite
  rw [htot, if_neg (by decide)]

theorem reboot_reads_back_half : ∃ im0 im im2,
    flatfsMount (some (tySiphash24 firstKey)) fileImage 4505600 = some (.ok, im0) ∧
    Reach (WriteOk (some (tySiphash24 firstKey))) (writeStep (some (tySiphash24 firstKey))) im0
      [(.bridge 2 0 [65], some (.ok 1))] im ∧
    flatfsMount (some (tySiphash24 halfKey)) (flatfsUnmount (some (tySiphash24 firstKey)) im ⟨0, 0, 0, 0, 0⟩ none)
      4505600 = some (.ok, im2) ∧
    ∀ ino off len r, readFile (some (tySiphash24 firstKey)) im.fs ino off len = .ok r →
      readFile (some (tySiphash24 halfKey)) im2.fs ino off len = .ok r := by
  have hfile : Mounted fileImage := mounted_1100.of_fixed rfl
  have hok : superMacOk (some (tySiphash24 firstKey)) fileImage.fs.super fileImage.mac = true := rfl
  obtain ⟨im0, hmount, -, hino, hsup⟩ := mount_accepted (show blockSize * 32 ≤ 4505600 by decide) hfile fresh_1100 rfl hok
  have hfix := (congrArg Super.fixed hsup).trans (markDirty_fixed ..)
  have hw := write_file (some (tySiphash24 firstKey)) (by rw [hino]; rfl) (Super.totalInodes_of_fixed hfix)
  have hr := (Reach.start : Reach (WriteOk (some (tySiphash24 firstKey))) (writeStep (some (tySiphash24 firstKey)))
    im0 [] im0).next (i := .bridge 2 0 [65]) ⟨1, hw⟩ (Prod.ext hw rfl)
  have hlabel := Super.label_of_fixed ((writeStep_fixed (some (tySiphash24 firstKey)) im0 (.bridge 2 0 [65])).trans hfix)
  obtain ⟨im2, hm2, hread⟩ := (reboot_reads_back_iff firstKey halfKey im0 _ 4505600 _ ⟨0, 0, 0, 0, 0⟩ none (by decide)
    (mounted_of_mount hmount) hr).2 (by
      rw [tySiphash24_halfKey]
      refine ⟨?_, fun ino i _ _ off _ b hb => ?_⟩
      · rw [superMacOk, ← unmount_mac (tySiphash24 firstKey) (by rw [hlabel]; decide)]
        simp
      exact (flatfsFileReadBlk_iff _ rfl hb).1.1 hb)
  exact ⟨im0, _, im2, hmount, hr, hm2, hread⟩

end Kobalt.Flatfs
