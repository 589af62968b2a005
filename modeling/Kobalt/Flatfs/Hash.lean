/-
  Subject: DIRECTORIES (`flatfs_hash.c`): the hash tree of a directory, and that it is a map from
  names to inode numbers as long as no insertion meets a hole before its name.

  A directory has a root block with 256 children, one leaf block per value of the top byte of the
  name's hash, and 32 entries of 128 bytes in a leaf. `flatfs_htree_insert` takes the first slot
  that is free or has the name, so it overlooks an entry of that name behind a freed slot:
  `flatfsHtree_map` is the law with the condition that excludes this, `flatfsHtree_duplicate` the
  run without it.
-/
import Mathlib.Data.List.GetD
import Mathlib.Data.List.TakeWhile
import Kobalt.Lib.Slots
import Kobalt.Flatfs.Own

namespace Kobalt.Flatfs

open Function List

variable {de : Bytes} {s s' : FS} {name : Text} {b dir ftype h i ino nlen : Nat} {L : Nat → Bytes}

/-! ## 1. The code -/

def nameMax : Nat := 256
def htreeMagic : Nat := 0x46485452
def direntSize : Nat := 128
def direntsPerBlk : Nat := 32

/-- `fstrncmp` on two strings given by their bytes. -/
def fstrncmp (a b : Nat → UInt8) : Nat → Int
  | 0 => 0
  | n + 1 =>
    if a 0 ≠ b 0 then ((a 0).toNat : Int) - (b 0).toNat
    else if a 0 = 0 then 0
    else fstrncmp (fun j => a (j + 1)) (fun j => b (j + 1)) n

/-- `flatfs_hash_name`: FNV-1a. -/
def flatfsHashName (name : Text) (len : Nat) : Nat :=
  ((name.take len).foldl (fun h c => (h ^^^ c.toUInt32) * 0x01000193) (0x811c9dc5 : UInt32)).toNat

/-- `htroot`: the block of the root of a directory's hash tree. -/
def htroot (s : FS) (dirIno : Nat) : Option Nat :=
  if (s.inode dirIno).dirHtreeBlk = 0 then none else some (s.inode dirIno).dirHtreeBlk

def rtMagic (rt : Bytes) : Nat := leAt rt 0 4

def rtCount (rt : Bytes) : Nat := leAt rt 4 4

/-- `rt->children[b]`. -/
def rtChild (rt : Bytes) (b : Nat) : Nat := leAt rt (16 + 8 * b) 8

/-- `rt->crc32 = 0; rt->crc32 = flatfs_crc32(rt, sizeof(*rt))`. -/
def rtSeal (rt : Bytes) : Bytes :=
  putLE (putLE rt 4092 4 0) 4092 4 (flatfsCrc32 (bytesAt (putLE rt 4092 4 0) 0 4096))

def flatfsHtreeInit (s : FS) (dirIno rootBlk : Nat) : Done :=
  let rt := putLE (putLE (fill (s.blk rootBlk) 0 4096 fun _ => 0) 0 4 htreeMagic) 8 4 1
  let s := s.setBlk rootBlk (rtSeal rt)
  let i := { s.inode dirIno with
    dirHtreeBlk := rootBlk, htreeDepth := 1, flags := (s.inode dirIno).flags ||| flHtree }
  flatfsInodeWrite (s.setInode dirIno i) i

/-- `ensure_leaf`: the leaf of a bucket, made on demand; 0 if there is no room. -/
def ensureLeaf (s : FS) (rt bucket : Nat) : Nat × FS :=
  if rtChild (s.blk rt) bucket ≠ 0 then (rtChild (s.blk rt) bucket, s) else
  match flatfsAllocBlock s with
  | (.error _, s') => (0, s')
  | (.ok b, s') =>
    let s' := s'.setBlk b (fill (s'.blk b) 0 4096 fun _ => 0)
    (b, s'.setBlk rt (rtSeal (putLE (s'.blk rt) (16 + 8 * bucket) 8 b)))

/-- `de[i].ino`. -/
def deIno (de : Bytes) (i : Nat) : Nat := leAt de (128 * i) 8

def deHash (de : Bytes) (i : Nat) : Nat := leAt de (128 * i + 8) 4

def deNameLen (de : Bytes) (i : Nat) : Nat := (de (128 * i + 12)).toNat

/-- The test the three functions make on an entry in use. -/
def deMatches (de : Bytes) (h nlen : Nat) (name : Text) (i : Nat) : Bool :=
  deIno de i != 0 && deHash de i == h && deNameLen de i == nlen % 256 &&
    fstrncmp (fun j => de (128 * i + 16 + j)) (fun j => name.getD j 0) nlen == 0

/-- What `flatfs_htree_insert` writes into a free entry. A name of more than 112 bytes goes on
    into the entries behind it. -/
def putDirent (de : Bytes) (i ino h nlen ftype : Nat) (name : Text) : Bytes :=
  let de := fill de (128 * i) 128 fun _ => 0
  let de := putLE de (128 * i) 8 ino
  let de := putLE de (128 * i + 8) 4 h
  let de := putLE de (128 * i + 12) 1 nlen
  let de := putLE de (128 * i + 13) 1 ftype
  let de := putLE de (128 * i + 14) 2 direntSize
  let de := fill de (128 * i + 16) nlen fun j => name.getD j 0
  let de := putLE de (128 * i + 124) 4 0
  putLE de (128 * i + 124) 4 (flatfsCrc32 (bytesAt de (128 * i) 128))

def flatfsHtreeLookup (s : FS) (dirIno : Nat) (name : Text) : Result Nat :=
  match htroot s dirIno with
  | none => .error .corrupt
  | some rt =>
    if rtMagic (s.blk rt) ≠ htreeMagic then .error .corrupt else
    let nlen := fstrlen name nameMax
    let h := flatfsHashName name nlen
    let lb := rtChild (s.blk rt) (h / 16777216)
    if lb = 0 then .error .notfound else
    match (List.range direntsPerBlk).find? (deMatches (s.blk lb) h nlen name) with
    | some i => .ok (deIno (s.blk lb) i)
    | none => .error .notfound

/-- `flatfs_htree_insert`; `none` when a long name leaves the leaf block. -/
def flatfsHtreeInsert (s : FS) (dirIno : Nat) (name : Text) (ino ftype : Nat) :
    Option Done :=
  match htroot s dirIno with
  | none => some (.corrupt, s)
  | some rt =>
    if rtMagic (s.blk rt) ≠ htreeMagic then some (.corrupt, s) else
    let nlen := fstrlen name nameMax
    if nlen ≥ nameMax then some (.nametoolong, s) else
    let h := flatfsHashName name nlen
    let r := ensureLeaf s rt (h / 16777216)
    let lb := r.1
    let s := r.2
    if lb = 0 then some (.nospace, s) else
    match (List.range direntsPerBlk).find? fun i =>
        deIno (s.blk lb) i == 0 || deMatches (s.blk lb) h nlen name i with
    | none => some (.nospace, s)
    | some i =>
      if deIno (s.blk lb) i ≠ 0 then some (.exist, s)
      else if 128 * i + 16 + nlen > 4096 then none else
      let s := s.setBlk lb (putDirent (s.blk lb) i ino h nlen ftype name)
      let s := s.setBlk rt (rtSeal (putLE (s.blk rt) 4 4 (u32 (rtCount (s.blk rt) + 1))))
      let d := { s.inode dirIno with size := u64 ((s.inode dirIno).size + 1) }
      some (flatfsInodeWrite (s.setInode dirIno d) d)

/-- What `flatfs_htree_remove` does to the leaf `lb`, the root `rt` and the inode for entry `i`. -/
def clearedAt (s : FS) (dir rt lb i : Nat) : Done :=
  let s := s.setBlk lb (fill (s.blk lb) (128 * i) 128 fun _ => 0)
  let s := s.setBlk rt (rtSeal (putLE (s.blk rt) 4 4 (u32 (rtCount (s.blk rt) + 4294967295))))
  let d := { s.inode dir with size := if (s.inode dir).size = 0 then 0 else (s.inode dir).size - 1 }
  flatfsInodeWrite (s.setInode dir d) d

def flatfsHtreeRemove (s : FS) (dirIno : Nat) (name : Text) : Done :=
  match htroot s dirIno with
  | none => (.corrupt, s)
  | some rt =>
    if rtMagic (s.blk rt) ≠ htreeMagic then (.corrupt, s) else
    let nlen := fstrlen name nameMax
    let h := flatfsHashName name nlen
    let lb := rtChild (s.blk rt) (h / 16777216)
    if lb = 0 then (.notfound, s) else
    match (List.range direntsPerBlk).find? (deMatches (s.blk lb) h nlen name) with
    | none => (.notfound, s)
    | some i => clearedAt s dirIno rt lb i

/-! ## 2. A leaf as a slot table -/

/-- The names this is about: 1 to 108 bytes, none of them NUL. -/
structure NameOk (name : Text) : Prop where
  pos : 0 < name.length
  le : name.length ≤ 108
  noNul : 0 ∉ name

/-- The hash of a whole name. -/
def hashOf (name : Text) : Nat := flatfsHashName name name.length

/-- The bucket of a name. -/
def bucketOf (name : Text) : Nat := hashOf name / 16777216

def deName (de : Bytes) (i : Nat) : Text := bytesAt de (128 * i + 16) (deNameLen de i)

/-- **A leaf as a slot table.** -/
def deSlots (de : Bytes) : Slots Text Nat := fun i =>
  if deIno de i = 0 then none else some (deName de i, deIno de i)

/-- **A well-formed leaf of bucket `b`.** -/
structure LeafOk (b : Nat) (de : Bytes) : Prop where
  name : ∀ i < 32, deIno de i ≠ 0 → NameOk (deName de i)
  hash : ∀ i < 32, deIno de i ≠ 0 → deHash de i = hashOf (deName de i)
  bucket : ∀ i < 32, deIno de i ≠ 0 → bucketOf (deName de i) = b
  uniq : (deSlots de).Uniq 32

theorem bucketOf_lt (name : Text) : bucketOf name < 256 := by
  have h : hashOf name < 2 ^ 32 := UInt32.toNat_lt _
  unfold bucketOf
  omega

theorem NameOk.fstrlen (h : NameOk name) : fstrlen name nameMax = name.length := by
  have hle := h.le
  unfold Flatfs.fstrlen nameMax
  rw [takeWhile_eq_self_iff.2, length_take]
  · omega
  grind [h.noNul]

theorem fstrncmp_eq_zero (n : Nat) : ∀ {a b : Nat → UInt8}, (∀ j < n, b j ≠ 0) →
    (fstrncmp a b n = 0 ↔ ∀ j < n, a j = b j) := by
  induction n with
  | zero => exact fun _ => ⟨fun _ j hj => absurd hj (by omega), fun _ => rfl⟩
  | succ n ih =>
    intro a b hb
    have hb' : ∀ j < n, b (j + 1) ≠ 0 := fun j hj => hb (j + 1) (by omega)
    unfold fstrncmp
    by_cases h0 : a 0 = b 0
    · have hne : a 0 ≠ 0 := h0 ▸ hb 0 (by omega)
      rw [if_neg (not_not.2 h0), if_neg hne, ih hb']
      constructor
      · intro h j hj
        cases j with
        | zero => exact h0
        | succ j => exact h j (by omega)
      · exact fun h j hj => h (j + 1) (by omega)
    · rw [if_pos h0]
      constructor
      · intro h
        refine absurd (UInt8.toNat_inj.1 ?_) h0
        omega
      · exact fun h => absurd (h 0 (by omega)) h0

theorem eq_bytesAt_iff {m : Bytes} {a : Nat} {l : Text} :
    bytesAt m a l.length = l ↔ ∀ j < l.length, m (a + j) = l.getD j 0 := by
  constructor
  · grind [getD_bytesAt]
  · intro h
    refine ext_getElem (by simp) fun j h1 h2 => ?_
    rw [getElem_eq_getD 0, getElem_eq_getD 0, getD_bytesAt h2, h j h2]

/-- **The test of the code is the test of the slot table.** -/
theorem deMatches_eq_hit (hL : LeafOk b de) (hN : NameOk name) (hi : i < 32) :
    deMatches de (hashOf name) name.length name i = (deSlots de).hit name i := by
  have hle := hN.le
  have hnz : ∀ j < name.length, name.getD j 0 ≠ 0 := by
    intro j hj e
    rw [getD_eq_getElem _ _ hj] at e
    exact hN.noNul (e ▸ getElem_mem hj)
  rw [Bool.eq_iff_iff, Slots.hit_iff]
  unfold deMatches
  simp only [Bool.and_eq_true, bne_iff_ne, ne_eq, beq_iff_eq, fstrncmp_eq_zero name.length hnz,
    Nat.mod_eq_of_lt (show name.length < 256 by omega), deSlots]
  constructor
  · rintro ⟨⟨⟨h1, -⟩, h3⟩, h4⟩
    have hname : deName de i = name := by
      unfold deName
      rw [h3, eq_bytesAt_iff]
      exact h4
    exact ⟨deIno de i, by rw [if_neg h1, hname]⟩
  · rintro ⟨v, hv⟩
    by_cases h1 : deIno de i = 0
    · rw [if_pos h1] at hv; cases hv
    rw [if_neg h1] at hv
    have hname : deName de i = name := (Prod.mk.inj (Option.some.inj hv)).1
    have hlen : deNameLen de i = name.length := by rw [← hname]; simp [deName]
    refine ⟨⟨⟨h1, ?_⟩, hlen⟩, ?_⟩
    · rw [hL.hash i hi h1, hname]
    · rw [← eq_bytesAt_iff, ← hlen]
      exact hname

/-- The bytes outside the entry are kept by an insertion whose name fits the entry. -/
theorem putDirent_outside (hn : nlen ≤ 112) {x : Nat} (hx : x < 128 * i ∨ 128 * i + 128 ≤ x) :
    putDirent de i ino h nlen ftype name x = de x := by
  unfold putDirent putLE
  simp (disch := omega) only [fill_of_not_mem]

theorem deIno_putDirent (hino : ino < 256 ^ 8) : deIno (putDirent de i ino h nlen ftype name) i = ino := by
  grind [deIno, putDirent, leAt_putLE_of_disjoint, leAt_fill_of_disjoint, leAt_putLE_self]

theorem deHash_putDirent (hh : h < 256 ^ 4) : deHash (putDirent de i ino h nlen ftype name) i = h := by
  grind [deHash, putDirent, leAt_putLE_of_disjoint, leAt_fill_of_disjoint, leAt_putLE_self]

theorem deNameLen_putDirent (hn : nlen < 256) : deNameLen (putDirent de i ino h nlen ftype name) i = nlen := by
  unfold deNameLen putDirent putLE
  grind [fill_of_not_mem, fill_of_mem, leByte_toNat]

theorem deName_putDirent
    (hN : NameOk name) : deName (putDirent de i ino h name.length ftype name) i = name := by
  have hle := hN.le
  unfold deName
  rw [deNameLen_putDirent (by omega), eq_bytesAt_iff]
  intro j hj
  unfold putDirent putLE
  rw [fill_of_not_mem (by omega), fill_of_not_mem (by omega), fill_of_mem (by omega) (by omega)]
  congr 1
  omega

theorem deEntry_congr {de' : Bytes} {j : Nat} (h : ∀ x, 128 * j ≤ x → x < 128 * j + 128 → de' x = de x) :
    deIno de' j = deIno de j ∧ deHash de' j = deHash de j ∧ deNameLen de' j = deNameLen de j ∧
      (deNameLen de j ≤ 108 → deName de' j = deName de j) := by
  have hlen : deNameLen de' j = deNameLen de j := by
    unfold deNameLen
    rw [h _ (by omega) (by omega)]
  refine ⟨leAt_congr fun x h1 h2 => h x (by omega) (by omega),
    leAt_congr fun x h1 h2 => h x (by omega) (by omega), hlen, fun hle => ?_⟩
  grind [deName, bytesAt_congr]

theorem LeafOk.nameLen_le (hL : LeafOk b de) (hi : i < 32) (h : deIno de i ≠ 0) : deNameLen de i ≤ 108 := by
  have := (hL.name i hi h).le
  simpa [deName] using this

theorem deSlots_update {de' : Bytes} (hL : LeafOk b de)
    (h : ∀ x, x < 128 * i ∨ 128 * i + 128 ≤ x → de' x = de x) {j : Nat} (hj : j < 32) :
    deSlots de' j = update (deSlots de) i (deSlots de' i) j := by
  by_cases hji : j = i
  · subst hji; rw [update_self]
  · rw [update_of_ne hji]
    obtain ⟨h1, -, -, h4⟩ := deEntry_congr (j := j)
      fun x hx hx' => h x (by omega)
    unfold deSlots
    rw [h1]
    by_cases h0 : deIno de j = 0
    · rw [if_pos h0, if_pos h0]
    · rw [if_neg h0, if_neg h0, h4 (hL.nameLen_le hj h0)]

theorem leafOk_update {de' : Bytes} (hL : LeafOk b de)
    (hout : ∀ x, x < 128 * i ∨ 128 * i + 128 ≤ x → de' x = de x)
    (hnew : deIno de' i ≠ 0 → NameOk (deName de' i) ∧ deHash de' i = hashOf (deName de' i) ∧
      bucketOf (deName de' i) = b)
    (hU : Slots.Uniq (update (deSlots de) i (deSlots de' i)) 32) : LeafOk b de' := by
  have hrest : ∀ j < 32, j ≠ i → deIno de' j ≠ 0 →
      deIno de j ≠ 0 ∧ deHash de' j = deHash de j ∧ deName de' j = deName de j := by
    intro j hj hji h0
    obtain ⟨h1, h2, -, h4⟩ := deEntry_congr (j := j) fun x hx hx' => hout x (by omega)
    rw [h1] at h0
    exact ⟨h0, h2, h4 (hL.nameLen_le hj h0)⟩
  refine ⟨fun j hj h0 => ?_, fun j hj h0 => ?_, fun j hj h0 => ?_,
    Slots.uniq_congr (fun j hj => deSlots_update hL hout hj) hU⟩
  · by_cases hji : j = i
    · rw [hji] at h0 ⊢; exact (hnew h0).1
    grind [hL.name]
  · by_cases hji : j = i
    · rw [hji] at h0 ⊢; exact (hnew h0).2.1
    grind [hL.hash]
  · by_cases hji : j = i
    · rw [hji] at h0 ⊢; exact (hnew h0).2.2
    grind [hL.bucket]

section Put

variable {b i ino ftype : Nat} {de : Bytes} {name : Text} (hL : LeafOk b de)
  (hN : NameOk name) (hino0 : ino ≠ 0) (hino : ino < 256 ^ 8)
  (hk : (deSlots de).find 32 name = none)
include hL hN hino0 hino hk

omit hL hk in
theorem deSlots_putDirent :
    deSlots (putDirent de i ino (hashOf name) name.length ftype name) i = some (name, ino) := by
  unfold deSlots
  rw [deIno_putDirent hino, if_neg hino0, deName_putDirent hN]

theorem leafOk_put (hb : bucketOf name = b) :
    LeafOk b (putDirent de i ino (hashOf name) name.length ftype name) := by
  have hle := hN.le
  have hh : hashOf name < 256 ^ 4 := UInt32.toNat_lt _
  refine leafOk_update (i := i) hL (fun x hx => putDirent_outside (by omega) hx) (fun _ => ?_) ?_
  · grind [deName_putDirent, deHash_putDirent]
  grind [deSlots_putDirent, Slots.uniq_fill, hL.uniq]

theorem find_put (hi : i < 32) (hfree : deIno de i = 0) (name' : Text) :
    (deSlots (putDirent de i ino (hashOf name) name.length ftype name)).find 32 name' =
      if name' = name then some ino else (deSlots de).find 32 name' := by
  have hle := hN.le
  rw [Slots.find_congr fun j hj =>
      deSlots_update (i := i) hL (fun x hx => putDirent_outside (by omega) hx) hj,
    deSlots_putDirent hN hino0 hino]
  exact Slots.find_fill hL.uniq hi (by unfold deSlots; rw [if_pos hfree]) hk name'

end Put

section Clear

variable {b i : Nat} {de : Bytes} (hL : LeafOk b de)
include hL

omit hL in
theorem deSlots_clear : deSlots (fill de (128 * i) 128 fun _ => 0) i = none := by
  unfold deSlots
  refine if_pos (leAt_eq_zero fun x h1 h2 => ?_)
  rw [fill_of_mem h1 (by omega)]

theorem leafOk_clear : LeafOk b (fill de (128 * i) 128 fun _ => 0) := by
  refine leafOk_update (i := i) hL (fun x hx => fill_of_not_mem hx) (fun h => absurd ?_ h) ?_
  · refine leAt_eq_zero fun x h1 h2 => ?_
    rw [fill_of_mem h1 (by omega)]
  · rw [deSlots_clear]
    exact Slots.uniq_clear hL.uniq

theorem find_cleared (hi : i < 32) (hh : (deSlots de).hit name i = true)
    (name' : Text) : (deSlots (fill de (128 * i) 128 fun _ => 0)).find 32 name' =
      if name' = name then none else (deSlots de).find 32 name' := by
  rw [Slots.find_congr fun j hj => deSlots_update (i := i) hL (fun x hx => fill_of_not_mem hx) hj,
    deSlots_clear]
  exact Slots.find_clear hL.uniq hi hh name'

end Clear

/-! ## 3. One directory in the file system -/

/-- The leaf of bucket `b` of a directory; an absent one is empty. -/
def leafBytes (s : FS) (dir b : Nat) : Bytes :=
  if s.val (.hleaf dir b) = 0 then zeroBytes else s.blk (s.val (.hleaf dir b))

/-- A slot that belongs to the hash tree of `dir`. -/
def Slot.ofDir (dir : Nat) : Slot → Bool
  | .hroot x => x = dir
  | .hleaf x _ => x = dir
  | _ => false

/-- The inode of a directory is its own. -/
structure DirSelf (s : FS) (dir : Nat) : Prop where
  lt : dir < s.super.totalInodes
  pos : dir ≠ 0
  self : (s.inode dir).ino = dir

/-- `rt->count` -/
def FS.dirCount (s : FS) (dir : Nat) : Nat := rtCount (s.blk (s.val (.hroot dir)))

/-- The inode as `flatfs_inode_write` stores it. -/
def Inode.stored (i : Inode) : Inode := { i with crc32 := inodeCrc i }

theorem Inode.stored_setCrc (i : Inode) (c : Nat) : Inode.stored { i with crc32 := c } = i.stored := by
  unfold Inode.stored inodeCrc
  rfl

/-- **What a call on directory `dir` may do**: its leaves become `L`, its count `n`, its inode gets
    a new size and checksum, and everything else stays as it was. -/
structure DirStep (s : FS) (dir : Nat) (L : Nat → Bytes) (n : Nat) (s' : FS) : Prop where
  wf : Wf s'
  super : s'.super = { s.super with freeBlocks := s'.super.freeBlocks }
  inode : s'.inode = s.inode ∨
    ∃ z, s'.inode = update s.inode dir (Inode.stored { s.inode dir with size := z })
  val : ∀ a, (∀ b, a ≠ .hleaf dir b) → s'.val a = s.val a
  keep : ∀ b, s.val (.hleaf dir b) ≠ 0 → s'.val (.hleaf dir b) = s.val (.hleaf dir b)
  blk : ∀ a, a.ofDir dir = false → s.val a ≠ 0 → s'.blk (s.val a) = s.blk (s.val a)
  magic : rtMagic (s'.blk (s.val (.hroot dir))) = rtMagic (s.blk (s.val (.hroot dir)))
  count : rtCount (s'.blk (s.val (.hroot dir))) = n
  leaf : ∀ b < 256, leafBytes s' dir b = L b

theorem DirStep.refl (hW : Wf s) (dir : Nat) : DirStep s dir (leafBytes s dir) (s.dirCount dir) s :=
  ⟨hW, rfl, .inl rfl, fun _ _ => rfl, fun _ _ => rfl, fun _ _ _ => rfl, rfl, rfl, fun _ _ => rfl⟩

theorem DirStep.other (h : DirStep s dir L n s') (x : Nat) (hx : x ≠ dir) : s'.inode x = s.inode x := by
  rcases h.inode with hi | ⟨z, hi⟩
  · rw [hi]
  · rw [hi, update_of_ne hx]

theorem DirStep.dirCount (h : DirStep s dir L n s') : s'.dirCount dir = n := by
  rw [← h.count, FS.dirCount, h.val _ (by simp)]

theorem DirStep.trans {s1 : FS} {L' : Nat → Bytes} (h : DirStep s dir L n s1)
    (h' : DirStep s1 dir L' n' s') : DirStep s dir L' n' s' := by
  have hroot : s1.val (.hroot dir) = s.val (.hroot dir) := h.val _ (by simp)
  refine ⟨h'.wf, by rw [h'.super, h.super], ?_, fun a ha => (h'.val a ha).trans (h.val a ha),
    fun b hb => (h'.keep b (by rwa [h.keep b hb])).trans (h.keep b hb), fun a ha hv => ?_, ?_,
    by rw [← hroot]; exact h'.count, h'.leaf⟩
  · rcases h.inode with hi | ⟨z, hi⟩
    · rw [← hi]
      exact h'.inode
    · rcases h'.inode with hi' | ⟨z', hi'⟩
      · exact .inr ⟨z, hi'.trans hi⟩
      · refine .inr ⟨z', ?_⟩
        rw [hi', hi, update_idem, update_self]
        exact congrArg (update s.inode dir) (Inode.stored_setCrc { s.inode dir with size := z' } _)
  · have hne : ∀ b, a ≠ .hleaf dir b := by
      rintro b rfl
      simp [Slot.ofDir] at ha
    have e := h.val a hne
    grind [h'.blk, h.blk]
  grind [h'.magic, h.magic]

theorem DirStep.andKeep {s1 : FS} (h : DirStep s dir L n s1)
    (h' : DirStep s1 dir (leafBytes s1 dir) n' s') : DirStep s dir L n' s' := by
  have t := h.trans h'
  exact ⟨t.wf, t.super, t.inode, t.val, t.keep, t.blk, t.magic, t.count,
    fun b hb => (h'.leaf b hb).trans (h.leaf b hb)⟩

theorem DirStep.andUpdate {s1 : FS} {c : Bytes} (h : DirStep s dir (leafBytes s dir) n s1)
    (h' : DirStep s1 dir (update (leafBytes s1 dir) b c) n' s') :
    DirStep s dir (update (leafBytes s dir) b c) n' s' := by
  have t := h.trans h'
  refine ⟨t.wf, t.super, t.inode, t.val, t.keep, t.blk, t.magic, t.count, fun b' hb' => ?_⟩
  rw [h'.leaf b' hb']
  by_cases e : b' = b
  · rw [e, update_self, update_self]
  grind [h.leaf]

theorem val_hleaf (hr : s.val (.hroot dir) ≠ 0) (hb : b < 256) :
    s.val (.hleaf dir b) = rtChild (s.blk (s.val (.hroot dir))) b := by
  show childOf s (s.val (.hroot dir)) b = _
  unfold childOf
  rw [if_neg (by omega)]
  rfl

/-- Writing the root block of a directory: its leaves are what the new block says. -/
theorem val_setRoot (hO : Own s) (hr : s.val (.hroot dir) ≠ 0) {c : Bytes} {v : Slot → Nat}
    (hv : ∀ a, (∀ b < 256, a ≠ .hleaf dir b) → v a = s.val a) (hc : ∀ b < 256, rtChild c b = v (.hleaf dir b)) :
    (s.setBlk (s.val (.hroot dir)) c).val = v := by
  have hne : ∀ a, a ≠ .hroot dir → s.val a ≠ 0 → s.val a ≠ s.val (.hroot dir) :=
    fun a ha hv e => ha (hO.inj a _ e hv)
  have h11 : ∀ x j, wordOf (s.setBlk (s.val (.hroot dir)) c) (rootPtr s x 11) j =
      wordOf s (rootPtr s x 11) j := fun x j => wordOf_setBlk (hne (.ptr x 11) (by simp))
  funext a
  by_cases ha : ∃ b < 256, a = .hleaf dir b
  · obtain ⟨b, hb, rfl⟩ := ha
    rw [← hc b hb]
    show childOf _ (s.val (.hroot dir)) b = _
    unfold childOf
    rw [if_neg (by omega), FS.setBlk_blk_self]
    rfl
  rw [hv a fun b hb e => ha ⟨b, hb, e⟩]
  cases a with
  | ptr x k => rfl
  | ind x j => exact wordOf_setBlk (hne (.ptr x 10) (by simp))
  | dbl x j => exact h11 x j
  | dblInd x j k =>
    show wordOf _ (wordOf _ (rootPtr s x 11) j) k = _
    rw [h11]
    exact wordOf_setBlk (hne (.dbl x j) (by simp))
  | hroot x => rfl
  | hleaf x b =>
    by_cases hx : x = dir
    · show childOf _ _ b = childOf s _ b
      unfold childOf
      rw [if_pos (by grind), if_pos (by grind)]
    · exact childOf_setBlk (hne (.hroot x) fun e => hx (Slot.hroot.inj e))

theorem dirStep_setLeaf (hW : Wf s) (hb : b < 256) (hv : s.val (.hleaf dir b) ≠ 0) (c : Bytes) :
    DirStep s dir (update (leafBytes s dir) b c) (s.dirCount dir) (s.setBlk (s.val (.hleaf dir b)) c) := by
  have hval : (s.setBlk (s.val (.hleaf dir b)) c).val = s.val := val_setBlk_data hW.own rfl c
  have hne : ∀ a, a ≠ .hleaf dir b → s.val a ≠ 0 → s.val a ≠ s.val (.hleaf dir b) :=
    fun a ha hv e => ha (hW.own.inj a _ e hv)
  have hroot : (s.setBlk (s.val (.hleaf dir b)) c).blk (s.val (.hroot dir)) = s.blk (s.val (.hroot dir)) := by
    by_cases h0 : s.val (.hroot dir) = 0
    · rw [h0, FS.setBlk_blk_of_ne hv.symm]
    · rw [FS.setBlk_blk_of_ne (hne _ (by simp) h0)]
  refine ⟨wf_setBlk_data hW rfl c, rfl, .inl rfl, fun a _ => by rw [hval], fun _ _ => by rw [hval],
    fun a ha hva => FS.setBlk_blk_of_ne (hne a ?_ hva), by rw [hroot], by rw [hroot]; rfl, fun b' _ => ?_⟩
  · rintro rfl
    simp [Slot.ofDir] at ha
  · unfold leafBytes
    rw [hval]
    by_cases hbb : b' = b
    · subst hbb
      rw [if_neg hv, FS.setBlk_blk_self, update_self]
    grind [FS.setBlk_blk_of_ne]

theorem dirStep_setRoot (hW : Wf s) (hr : s.val (.hroot dir) ≠ 0) {c : Bytes}
    (hm : rtMagic c = rtMagic (s.blk (s.val (.hroot dir))))
    (hc : ∀ b < 256, rtChild c b = rtChild (s.blk (s.val (.hroot dir))) b) :
    DirStep s dir (leafBytes s dir) (rtCount c) (s.setBlk (s.val (.hroot dir)) c) := by
  have hne : ∀ a, a ≠ .hroot dir → s.val a ≠ 0 → s.val a ≠ s.val (.hroot dir) :=
    fun a ha hv e => ha (hW.own.inj a _ e hv)
  have hval := val_setRoot hW.own hr (fun _ _ => rfl) fun b hb => (hc b hb).trans (val_hleaf hr hb).symm
  refine ⟨⟨allocInv_setBlk hW.inv _ c, hW.dataPos, ?_, ?_⟩, rfl, .inl rfl, fun a _ => by rw [hval], fun _ _ => by rw [hval],
    fun a ha hva => FS.setBlk_blk_of_ne (hne a ?_ hva), ?_, by rw [FS.setBlk_blk_self], fun b' _ => ?_⟩
  · rw [hval]; exact hW.own.alloc
  · rw [hval]; exact hW.own.inj
  · rintro rfl
    simp [Slot.ofDir] at ha
  · rw [FS.setBlk_blk_self, hm]
  · unfold leafBytes
    rw [hval]
    grind [FS.setBlk_blk_of_ne]

theorem dirStep_setSize (hW : Wf s) (hD : DirSelf s dir) (n : Nat) :
    ∃ s', flatfsInodeWrite (s.setInode dir { s.inode dir with size := n })
      { s.inode dir with size := n } = (.ok, s') ∧ DirStep s dir (leafBytes s dir) (s.dirCount dir) s' := by
  obtain ⟨d, hd⟩ : ∃ d, d = { s.inode dir with size := n } := ⟨_, rfl⟩
  rw [← hd]
  have hino : d.ino = dir := by rw [hd]; exact hD.self
  obtain ⟨d', hd'⟩ : ∃ d', d' = d.stored := ⟨_, rfl⟩
  have hval : (s.setInode dir d').val = s.val :=
    val_setInode_congr (by rw [hd', hd]; rfl) (fun _ _ _ => by rw [hd', hd]; rfl) (by rw [hd', hd]; rfl)
  refine ⟨s.setInode dir d', ?_, ?_⟩
  · rw [flatfsInodeWrite_set hino hD.pos hD.lt, hd']
    rfl
  · refine ⟨?_, rfl, .inr ⟨n, by rw [hd', hd]; rfl⟩, fun a _ => by rw [hval], fun _ _ => by rw [hval], fun _ _ _ => rfl,
      rfl, rfl, fun b _ => ?_⟩
    · exact wf_of_le hW (hW.inv.congr rfl rfl rfl rfl rfl) rfl (fun _ h => h) fun a => .inr (by rw [hval])
    · unfold leafBytes
      rw [hval]
      rfl

theorem rtMagic_seal (rt : Bytes) : rtMagic (rtSeal rt) = rtMagic rt := by
  grind [rtMagic, rtSeal, leAt_putLE_of_disjoint]

theorem rtChild_seal {rt : Bytes} (hb : b < 256) : rtChild (rtSeal rt) b = rtChild rt b := by
  grind [rtChild, rtSeal, leAt_putLE_of_disjoint]

theorem rtCount_seal (rt : Bytes) : rtCount (rtSeal rt) = rtCount rt := by
  grind [rtCount, rtSeal, leAt_putLE_of_disjoint]

theorem dirStep_setCount (hW : Wf s) (hr : s.val (.hroot dir) ≠ 0) (hn : n < 256 ^ 4) :
    DirStep s dir (leafBytes s dir) n (s.setBlk (s.val (.hroot dir))
      (rtSeal (putLE (s.blk (s.val (.hroot dir))) 4 4 n))) := by
  have hc : rtCount (rtSeal (putLE (s.blk (s.val (.hroot dir))) 4 4 n)) = n := by
    rw [rtCount_seal]
    exact leAt_putLE_self hn
  nth_rewrite 1 [← hc]
  refine dirStep_setRoot hW hr ?_ fun b hb => ?_
  · rw [rtMagic_seal]
    exact leAt_putLE_of_disjoint (by omega)
  · rw [rtChild_seal hb]
    exact leAt_putLE_of_disjoint (by omega)

/-- **`ensure_leaf`**: no room and nothing changed, or the bucket has a leaf and all leaves hold
    what they held. -/
theorem ensureLeaf_step (hW : Wf s) (hr : s.val (.hroot dir) ≠ 0) (hb : b < 256) :
    ((s.val (.hleaf dir b) = 0 ∧ s.super.freeBlocks = 0) ∧ ensureLeaf s (s.val (.hroot dir)) b = (0, s)) ∨
    (s.val (.hleaf dir b) ≠ 0 ∨ 0 < s.super.freeBlocks) ∧
      (ensureLeaf s (s.val (.hroot dir)) b).1 ≠ 0 ∧ (ensureLeaf s (s.val (.hroot dir)) b).2.val (.hleaf dir b) =
        (ensureLeaf s (s.val (.hroot dir)) b).1 ∧
      DirStep s dir (leafBytes s dir) (s.dirCount dir) (ensureLeaf s (s.val (.hroot dir)) b).2 := by
  have hleaf := val_hleaf hr hb
  unfold ensureLeaf
  by_cases h0 : rtChild (s.blk (s.val (.hroot dir))) b = 0
  swap
  · rw [if_pos h0]
    grind [DirStep.refl]
  rw [if_neg (not_not.2 h0)]
  rcases flatfsAllocBlock_fresh hW with ⟨hf, he⟩ | ⟨k, he, hF⟩
  · grind
  rw [he]
  generalize hv : s.super.dataStart + k = v
  generalize hs1 : s.takeBit k = s1
  have hno : ∀ a, s.val a ≠ v := by rw [← hv]; exact hF.no
  have hpos : v ≠ 0 := by rw [← hv]; exact hF.pos
  have hlt : v < 256 ^ 8 := by rw [← hv]; exact hF.lt
  have hblk : s1.blk = update s.blk v zeroBytes := by rw [← hs1, ← hv]; exact hF.blk
  have hval1 : s1.val = s.val := by rw [← hs1]; exact hF.val
  have hW1 : Wf s1 := by rw [← hs1]; exact hF.wf
  -- a fresh block is zero already
  have hzero : s1.setBlk v (fill (s1.blk v) 0 4096 fun _ => 0) = s1 := by
    have hfill : fill (s1.blk v) 0 4096 (fun _ => 0) = s1.blk v := by
      rw [hblk, update_self]
      funext x
      unfold fill
      split <;> rfl
    rw [hfill]
    unfold FS.setBlk
    rw [update_eq_self]
  simp only [hzero]
  refine .inr ⟨.inr hF.free, hpos, ?_⟩
  generalize hc : rtSeal (putLE (s1.blk (s.val (.hroot dir))) (16 + 8 * b) 8 v) = c
  have hroot1 : s1.blk (s.val (.hroot dir)) = s.blk (s.val (.hroot dir)) := by
    rw [hblk, update_of_ne (hno _)]
  have hchild : ∀ b' < 256, rtChild c b' =
      if b' = b then v else rtChild (s.blk (s.val (.hroot dir))) b' := by
    intro b' hb'
    rw [← hc, rtChild_seal hb', hroot1]
    unfold rtChild
    by_cases hbb : b' = b
    · rw [if_pos hbb, hbb]
      exact leAt_putLE_self hlt
    · rw [if_neg hbb]
      exact leAt_putLE_of_disjoint (by omega)
  have hval : (s1.setBlk (s.val (.hroot dir)) c).val = update s.val (.hleaf dir b) v := by
    have hset := val_setRoot hW1.own (c := c) (v := update s.val (.hleaf dir b) v) (by rw [hval1]; exact hr)
      (fun a ha => by rw [hval1, update_of_ne (ha b hb)]) fun b' hb' => by
        rw [hchild b' hb', update_apply, val_hleaf hr hb']
        simp only [Slot.hleaf.injEq, true_and]
    rwa [hval1] at hset
  have hblk2 : ∀ x, x ≠ s.val (.hroot dir) → x ≠ v →
      (s1.setBlk (s.val (.hroot dir)) c).blk x = s.blk x := by
    intro x h1 h2
    rw [FS.setBlk_blk_of_ne h1, hblk, update_of_ne h2]
  refine ⟨by rw [hval]; exact update_self .., ?_⟩
  refine ⟨?_, ?_, ?_, fun a ha => ?_, fun b' hb' => ?_, fun a ha hva => ?_, ?_, ?_, fun b' hb' => ?_⟩
  · refine wf_fill hW (k := k) (a := .hleaf dir b) hF.no (allocInv_setBlk hW1.inv _ _) ?_ ?_
      (by rw [hval, ← hv])
    · rw [← hs1]; rfl
    · intro x
      rw [← hs1]
      exact hF.alloc x
  · rw [← hs1]; rfl
  · rw [← hs1]; exact .inl rfl
  · rw [hval, update_of_ne (ha b)]
  · rw [hval, update_of_ne]
    rintro h
    rw [h, hleaf] at hb'
    exact hb' h0
  · grind [hW.own.inj, Slot.ofDir]
  · rw [FS.setBlk_blk_self, ← hc, rtMagic_seal, hroot1]
    exact leAt_putLE_of_disjoint (by omega)
  · rw [FS.setBlk_blk_self, ← hc, rtCount_seal, hroot1]
    exact leAt_putLE_of_disjoint (by omega)
  · unfold leafBytes
    rw [hval]
    by_cases hbb : b' = b
    · subst hbb
      rw [update_self, if_neg hpos, hleaf, if_pos h0, FS.setBlk_blk_of_ne (hno _).symm, hblk, update_self]
    grind [hW.own.inj]

/-! ## 4. What the calls do -/

/-- The directory has a root block with the right magic. -/
def HasRoot (s : FS) (dir : Nat) : Prop :=
  s.val (.hroot dir) ≠ 0 ∧ rtMagic (s.blk (s.val (.hroot dir))) = htreeMagic

section Calls

variable (s : FS) (dir : Nat) (name : Text)

/-- The hash the calls compute for a string, cut at `FLATFS_NAME_MAX`. -/
def callHash : Nat := flatfsHashName name (fstrlen name nameMax)

/-- The leaf the calls look at. -/
def callLeaf : Bytes := leafBytes s dir (callHash name / 16777216)

/-- The entry `flatfs_htree_lookup` and `flatfs_htree_remove` stop at. -/
def scanMatch : Option Nat :=
  (List.range 32).find? (deMatches (callLeaf s dir name) (callHash name) (fstrlen name nameMax) name)

/-- The entry of a leaf at which `flatfs_htree_insert` stops. -/
def fitIn (de : Bytes) : Option Nat :=
  (List.range 32).find? fun i => deIno de i == 0 || deMatches de (callHash name) (fstrlen name nameMax) name i

def scanFit : Option Nat := fitIn name (callLeaf s dir name)

/-- **There is a free entry for the name**, entry `i` of the leaf `de`: the directory has a root, the name is
    no longer than the limit, its bucket has a leaf or more than `n` blocks are free, and the first entry
    that is free or has the name is free. -/
structure FreeEntry (n : Nat) (de : Bytes) (i : Nat) : Prop where
  root : HasRoot s dir
  short : fstrlen name nameMax < nameMax
  leaf : s.val (.hleaf dir (callHash name / 16777216)) ≠ 0 ∨ n < s.super.freeBlocks
  fit : fitIn name de = some i
  free : deIno de i = 0

/-- There is one in the leaf the call looks at. -/
abbrev FreeAt (n i : Nat) : Prop := FreeEntry s dir name n (callLeaf s dir name) i

/-- **The outcomes of `flatfs_htree_insert`.** -/
inductive Inserted (ino ftype : Nat) : Done → Prop
  | corrupt : ¬ HasRoot s dir → Inserted ino ftype (.corrupt, s)
  | tooLong : fstrlen name nameMax ≥ nameMax → Inserted ino ftype (.nametoolong, s)
  | noRoom : s.val (.hleaf dir (callHash name / 16777216)) = 0 → Inserted ino ftype (.nospace, s)
  | full (s' : FS) : scanFit s dir name = none → DirStep s dir (leafBytes s dir) (s.dirCount dir) s' →
      Inserted ino ftype (.nospace, s')
  | found (s' : FS) (i : Nat) : scanFit s dir name = some i → deIno (callLeaf s dir name) i ≠ 0 →
      DirStep s dir (leafBytes s dir) (s.dirCount dir) s' → Inserted ino ftype (.exist, s')
  | put (s' : FS) (i : Nat) : scanFit s dir name = some i → deIno (callLeaf s dir name) i = 0 →
      DirStep s dir (update (leafBytes s dir) (callHash name / 16777216)
        (putDirent (callLeaf s dir name) i ino (callHash name) (fstrlen name nameMax) ftype name)) (u32 (s.dirCount dir + 1)) s' →
      Inserted ino ftype (.ok, s')

/-- **The outcomes of `flatfs_htree_remove`.** -/
inductive Removed : Done → Prop
  | corrupt : ¬ HasRoot s dir → Removed (.corrupt, s)
  | absent : scanMatch s dir name = none → Removed (.notfound, s)
  | clear (s' : FS) (i : Nat) : scanMatch s dir name = some i →
      DirStep s dir (update (leafBytes s dir) (callHash name / 16777216)
        (fill (callLeaf s dir name) (128 * i) 128 fun _ => 0)) (u32 (s.dirCount dir + 4294967295)) s' →
      Removed (.ok, s')

end Calls

section Calls

variable {s : FS} {dir : Nat} {name : Text}

theorem callHash_lt (name : Text) : callHash name / 16777216 < 256 := by
  have h : callHash name < 2 ^ 32 := UInt32.toNat_lt _
  omega

theorem htroot_eq (hlt : dir < s.super.totalInodes) :
    htroot s dir = if s.val (.hroot dir) = 0 then none else some (s.val (.hroot dir)) := by
  have hv : s.val (.hroot dir) = (s.inode dir).dirHtreeBlk := if_pos hlt
  rw [hv]
  rfl

theorem htroot_corrupt {α : Type} {f : Nat → α} {x : α} (hlt : dir < s.super.totalInodes) (h : ¬ HasRoot s dir) :
    (match htroot s dir with
      | none => x
      | some rt => if rtMagic (s.blk rt) ≠ htreeMagic then x else f rt) = x := by
  rw [htroot_eq hlt]
  by_cases hr : s.val (.hroot dir) = 0
  · rw [if_pos hr]
  · rw [if_neg hr]
    exact if_pos fun hm => h ⟨hr, hm⟩

theorem leafBytes_of_ne (h : s.val (.hleaf dir b) ≠ 0) :
    leafBytes s dir b = s.blk (s.val (.hleaf dir b)) := if_neg h

theorem scanMatch_of_no_leaf (h : s.val (.hleaf dir (callHash name / 16777216)) = 0) :
    scanMatch s dir name = none := by
  have hz : ∀ i, deIno (callLeaf s dir name) i = 0 := by
    intro i
    unfold callLeaf leafBytes
    rw [if_pos h]
    exact leAt_zeroBytes _ _
  refine List.find?_eq_none.2 fun i _ => ?_
  unfold deMatches
  simp [hz i]

theorem flatfsHtreeLookup_eq (hlt : dir < s.super.totalInodes) (h : HasRoot s dir) :
    flatfsHtreeLookup s dir name = match scanMatch s dir name with
      | some i => .ok (deIno (callLeaf s dir name) i)
      | none => .error .notfound := by
  have hleaf := val_hleaf h.1 (callHash_lt name)
  unfold flatfsHtreeLookup
  rw [htroot_eq hlt, if_neg h.1]
  dsimp only
  rw [if_neg (not_not.2 h.2), ← callHash, ← hleaf]
  by_cases h0 : s.val (.hleaf dir (callHash name / 16777216)) = 0
  · rw [if_pos h0, scanMatch_of_no_leaf h0]
  · rw [if_neg h0, ← leafBytes_of_ne h0, show direntsPerBlk = 32 from rfl, ← callLeaf, ← scanMatch]

theorem flatfsHtreeLookup_corrupt (hlt : dir < s.super.totalInodes) (h : ¬ HasRoot s dir) :
    flatfsHtreeLookup s dir name = .error .corrupt := htroot_corrupt hlt h

theorem DirStep.self (h : DirStep s dir L n s') (hD : DirSelf s dir) : DirSelf s' dir := by
  refine ⟨by rw [h.super]; exact hD.lt, hD.pos, ?_⟩
  rcases h.inode with hi | ⟨z, hi⟩
  · rw [hi]
    exact hD.self
  · rw [hi, update_self]
    exact hD.self

theorem DirStep.root (h : DirStep s dir L n s') (hR : HasRoot s dir) : HasRoot s' dir := by
  have hr : s'.val (.hroot dir) = s.val (.hroot dir) := h.val _ (by simp)
  unfold HasRoot
  rw [hr, h.magic]
  exact hR

/-- **The end of a call that changed an entry**: the leaf, the count and the size. -/
theorem dirStep_entry (hW : Wf s) (hD : DirSelf s dir) (hr : s.val (.hroot dir) ≠ 0)
    (hb : b < 256) (hl : s.val (.hleaf dir b) ≠ 0) (c : Bytes) (f g : Nat → Nat) (hf : ∀ n, f n < 256 ^ 4) :
    ∃ s', (let s1 := s.setBlk (s.val (.hleaf dir b)) c
        let s2 := s1.setBlk (s.val (.hroot dir))
          (rtSeal (putLE (s1.blk (s.val (.hroot dir))) 4 4 (f (rtCount (s1.blk (s.val (.hroot dir)))))))
        let d := { s2.inode dir with size := g (s2.inode dir).size }
        flatfsInodeWrite (s2.setInode dir d) d) = (.ok, s') ∧
      DirStep s dir (update (leafBytes s dir) b c) (f (s.dirCount dir)) s' := by
  have h1 := dirStep_setLeaf hW hb hl c
  have hroot : (s.setBlk (s.val (.hleaf dir b)) c).val (.hroot dir) = s.val (.hroot dir) :=
    h1.val _ (by simp)
  have h2 := dirStep_setCount h1.wf (by rw [hroot]; exact hr) (hf (s.dirCount dir))
  rw [hroot] at h2
  have h12 := h1.andKeep h2
  obtain ⟨s', he, h3⟩ := dirStep_setSize h12.wf (h12.self hD) (g (FS.inode _ dir).size)
  rw [h12.dirCount] at h3
  refine ⟨s', ?_, h12.andKeep h3⟩
  dsimp only
  rw [h1.count]
  exact he

theorem flatfsHtreeInsert_corrupt (hlt : dir < s.super.totalInodes) (h : ¬ HasRoot s dir)
    (ino ftype : Nat) : flatfsHtreeInsert s dir name ino ftype = some (.corrupt, s) := htroot_corrupt hlt h

/-- **`flatfs_htree_insert`**: an outcome of the list, a success exactly if there is a free entry; or a long
    name that leaves the leaf. -/
theorem flatfsHtreeInsert_cases (name : Text) (hW : Wf s) (hD : DirSelf s dir) (ino ftype : Nat) :
    (∃ r, flatfsHtreeInsert s dir name ino ftype = some r ∧ Inserted s dir name ino ftype r ∧
      (r.1 = .ok ↔ ∃ i, FreeAt s dir name 0 i) ∧
      ∀ i, FreeAt s dir name 0 i → 128 * i + 16 + fstrlen name nameMax ≤ 4096) ∨
    flatfsHtreeInsert s dir name ino ftype = none ∧ ∃ i, FreeAt s dir name 0 i ∧
      4096 < 128 * i + 16 + fstrlen name nameMax := by
  -- an error leaves no free entry
  have herr : ∀ {r : Done}, Inserted s dir name ino ftype r → r.1 ≠ .ok →
      (∀ i, ¬ FreeAt s dir name 0 i) →
      Inserted s dir name ino ftype r ∧ (r.1 = .ok ↔ ∃ i, FreeAt s dir name 0 i) ∧
        ∀ i, FreeAt s dir name 0 i → 128 * i + 16 + fstrlen name nameMax ≤ 4096 :=
    fun hI h hno => ⟨hI, ⟨fun e => absurd e h, fun ⟨i, hi⟩ => absurd hi (hno i)⟩, fun i hi => absurd hi (hno i)⟩
  by_cases hR : HasRoot s dir
  swap
  · exact .inl ⟨_, flatfsHtreeInsert_corrupt hD.lt hR ino ftype, herr (.corrupt hR) (by simp) fun i h => hR h.root⟩
  unfold flatfsHtreeInsert
  rw [htroot_eq hD.lt, if_neg hR.1]
  dsimp only
  rw [if_neg (not_not.2 hR.2), ← callHash]
  by_cases hlong : fstrlen name nameMax ≥ nameMax
  · rw [if_pos hlong]
    exact .inl ⟨_, rfl, herr (.tooLong hlong) (by simp) fun i h => absurd h.short (by omega)⟩
  rw [if_neg hlong]
  rcases ensureLeaf_step hW hR.1 (callHash_lt name) with ⟨⟨h0, hf⟩, he⟩ | ⟨hroom, h0, hv, hstep⟩
  · rw [he, if_pos rfl]
    exact .inl ⟨_, rfl, herr (.noRoom h0) (by simp) fun i h => h.leaf.elim (absurd h0) fun h => by omega⟩
  generalize ensureLeaf s (s.val (.hroot dir)) (callHash name / 16777216) = r at h0 hv hstep
  obtain ⟨lb, s1⟩ := r
  dsimp only at h0 hv hstep ⊢
  rw [if_neg h0, show direntsPerBlk = 32 from rfl]
  -- the leaf holds what it held before it was made sure of
  have hleaf : s1.blk lb = callLeaf s dir name := by
    unfold callLeaf
    rw [← hstep.leaf _ (callHash_lt name), leafBytes_of_ne (by rw [hv]; exact h0), hv]
  rw [hleaf, ← fitIn, ← scanFit]
  cases hs : scanFit s dir name with
  | none =>
    exact .inl ⟨_, rfl, herr (.full s1 hs hstep) (by simp) fun i h => nomatch hs.symm.trans h.fit⟩
  | some i =>
    dsimp only
    have hfit : ∀ {j}, FreeAt s dir name 0 j → j = i :=
      fun h => Option.some.inj (h.fit.symm.trans hs)
    by_cases hi : deIno (callLeaf s dir name) i = 0
    swap
    · rw [if_pos hi]
      exact .inl ⟨_, rfl, herr (.found s1 i hs hi hstep) (by simp) fun j h => hi (hfit h ▸ h.free)⟩
    have hfree : FreeAt s dir name 0 i := ⟨hR, by omega, hroom, hs, hi⟩
    rw [if_neg (not_not.2 hi)]
    by_cases hout : 128 * i + 16 + fstrlen name nameMax > 4096
    · rw [if_pos hout]
      exact .inr ⟨rfl, i, hfree, hout⟩
    rw [if_neg hout]
    have hroot : s1.val (.hroot dir) = s.val (.hroot dir) := hstep.val _ (by simp)
    obtain ⟨s', hs', hend⟩ := dirStep_entry hstep.wf (hstep.self hD) (by rw [hroot]; exact hR.1)
      (callHash_lt name) (by rw [hv]; exact h0)
      (putDirent (callLeaf s dir name) i ino (callHash name) (fstrlen name nameMax) ftype name)
      (fun n => u32 (n + 1)) (fun n => u64 (n + 1)) fun _ => Nat.mod_lt _ (by decide)
    rw [hroot, hv] at hs'
    rw [hstep.dirCount] at hend
    exact .inl ⟨(.ok, s'), congrArg some hs', .put s' i hs hi (hstep.andUpdate hend), ⟨fun _ => ⟨i, hfree⟩, fun _ => rfl⟩,
      fun j h => by have := hfit h; omega⟩

theorem fitIn_lt {i : Nat} {de : Bytes} (h : fitIn name de = some i) : i < 32 :=
  mem_range.1 (mem_of_find?_eq_some h)

theorem flatfsHtreeInsert_inserted (hW : Wf s) (hD : DirSelf s dir)
    {r : Done} (h : flatfsHtreeInsert s dir name ino ftype = some r) :
    Inserted s dir name ino ftype r := by
  rcases flatfsHtreeInsert_cases name hW hD ino ftype with ⟨r', hr, hins, -⟩ | ⟨hr, -⟩
  · cases hr.symm.trans h
    exact hins
  · cases hr.symm.trans h

theorem flatfsHtreeInsert_outcome (hW : Wf s) (hD : DirSelf s dir)
    (hn : fstrlen name nameMax ≤ 112 ∨ fstrlen name nameMax ≥ nameMax) :
    ∃ r, flatfsHtreeInsert s dir name ino ftype = some r ∧ Inserted s dir name ino ftype r := by
  rcases flatfsHtreeInsert_cases name hW hD ino ftype with ⟨r, hr, hI, -⟩ | ⟨-, i, hi, hlt⟩
  · exact ⟨r, hr, hI⟩
  · have h1 := fitIn_lt hi.fit
    have h2 := hi.short
    omega

theorem flatfsHtreeRemove_corrupt (hlt : dir < s.super.totalInodes) (h : ¬ HasRoot s dir) :
    flatfsHtreeRemove s dir name = (.corrupt, s) := htroot_corrupt hlt h

theorem flatfsHtreeRemove_outcome (name : Text) (hW : Wf s) (hD : DirSelf s dir) :
    Removed s dir name (flatfsHtreeRemove s dir name) := by
  by_cases hR : HasRoot s dir
  swap
  · rw [flatfsHtreeRemove_corrupt hD.lt hR]
    exact .corrupt hR
  have hleaf := val_hleaf hR.1 (callHash_lt name)
  unfold flatfsHtreeRemove clearedAt
  rw [htroot_eq hD.lt, if_neg hR.1]
  dsimp only
  rw [if_neg (not_not.2 hR.2), ← callHash, ← hleaf]
  by_cases h0 : s.val (.hleaf dir (callHash name / 16777216)) = 0
  · rw [if_pos h0]
    exact .absent (scanMatch_of_no_leaf h0)
  rw [if_neg h0, ← leafBytes_of_ne h0, show direntsPerBlk = 32 from rfl, ← callLeaf, ← scanMatch]
  cases hs : scanMatch s dir name with
  | none => exact .absent hs
  | some i =>
    obtain ⟨s', hs', hend⟩ := dirStep_entry hW hD hR.1 (callHash_lt name) h0
      (fill (callLeaf s dir name) (128 * i) 128 fun _ => 0) (fun n => u32 (n + 4294967295))
      (fun n => if n = 0 then 0 else n - 1) fun _ => Nat.mod_lt _ (by decide)
    dsimp only at hs' ⊢
    rw [hs']
    exact .clear s' i hs hend

end Calls

/-! ## 5. The map a directory stands for -/

/-- **A well-formed directory.** -/
structure DirOk (s : FS) (dir : Nat) : Prop where
  wf : Wf s
  self : DirSelf s dir
  root : HasRoot s dir
  leaf : ∀ b < 256, LeafOk b (leafBytes s dir b)

/-- The leaf of a name. -/
def nameLeaf (s : FS) (dir : Nat) (name : Text) : Bytes := leafBytes s dir (bucketOf name)

/-- **The map a directory stands for.** -/
def dirFind (s : FS) (dir : Nat) (name : Text) : Option Nat :=
  (deSlots (nameLeaf s dir name)).find 32 name

theorem deSlots_eq_none : deSlots de i = none ↔ deIno de i = 0 := by grind [deSlots]

theorem deSlots_zero (i : Nat) : deSlots zeroBytes i = none :=
  deSlots_eq_none.2 (leAt_zeroBytes _ _)

section Map

variable {s : FS} {dir : Nat} {name : Text}

theorem NameOk.callHash (hN : NameOk name) : callHash name = hashOf name := by
  unfold Flatfs.callHash hashOf
  rw [hN.fstrlen]

theorem NameOk.callLeaf (hN : NameOk name) : callLeaf s dir name = nameLeaf s dir name := by
  unfold Flatfs.callLeaf nameLeaf bucketOf
  rw [hN.callHash]

variable (hok : DirOk s dir) (hN : NameOk name)
include hok

theorem DirOk.nameLeaf (name : Text) : LeafOk (bucketOf name) (nameLeaf s dir name) :=
  hok.leaf _ (bucketOf_lt name)

theorem DirOk.step (h : DirStep s dir L n s') (hL : ∀ b < 256, LeafOk b (L b)) : DirOk s' dir := by
  refine ⟨h.wf, h.self hok.self, h.root hok.root, fun b hb => ?_⟩
  rw [h.leaf b hb]
  exact hL b hb

include hN

theorem scanMatch_eq : scanMatch s dir name =
    (List.range 32).find? ((deSlots (nameLeaf s dir name)).hit name) := by
  unfold scanMatch
  rw [hN.callHash, hN.callLeaf, hN.fstrlen]
  exact List.find?_congr fun i hi => deMatches_eq_hit (hok.nameLeaf name) hN (mem_range.1 hi)

theorem scanFit_eq : scanFit s dir name = (deSlots (nameLeaf s dir name)).firstFit 32 name := by
  have hfree : ∀ i, (deIno (nameLeaf s dir name) i == 0) =
      (deSlots (nameLeaf s dir name) i).isNone := by
    intro i
    rw [Bool.eq_iff_iff, Option.isNone_iff_eq_none, deSlots_eq_none, beq_iff_eq]
  unfold scanFit fitIn Slots.firstFit
  rw [hN.callHash, hN.callLeaf, hN.fstrlen]
  refine List.find?_congr fun i hi => ?_
  rw [deMatches_eq_hit (hok.nameLeaf name) hN (mem_range.1 hi), hfree i]

theorem flatfsHtreeLookup_eq_dirFind : flatfsHtreeLookup s dir name = match dirFind s dir name with
    | some ino => .ok ino
    | none => .error .notfound := by
  rw [flatfsHtreeLookup_eq hok.self.lt hok.root, scanMatch_eq hok hN, hN.callLeaf]
  unfold dirFind Slots.find
  cases hs : (List.range 32).find? ((deSlots (nameLeaf s dir name)).hit name) with
  | none => rfl
  | some i =>
    obtain ⟨v, hv⟩ := Slots.hit_iff.1 (List.find?_some hs)
    grind [deSlots]

omit hok hN in
theorem dirFind_keep (h : DirStep s dir (leafBytes s dir) n s') : dirFind s' dir = dirFind s dir := by
  funext name
  unfold dirFind nameLeaf
  rw [h.leaf _ (bucketOf_lt name)]

omit hok hN in
theorem dirFind_update {c : Bytes} {o : Option Nat}
    (h : DirStep s dir (update (leafBytes s dir) (bucketOf name) c) n s')
    (hc : ∀ name', (deSlots c).find 32 name' =
      if name' = name then o else (deSlots (nameLeaf s dir name)).find 32 name') :
    dirFind s' dir = update (dirFind s dir) name o := by
  funext name'
  unfold dirFind
  rw [update_apply, nameLeaf, h.leaf _ (bucketOf_lt name')]
  by_cases hb : bucketOf name' = bucketOf name
  · rw [hb, update_self, hc, nameLeaf, nameLeaf, hb]
  · rw [update_of_ne hb, if_neg fun e => hb (congrArg _ e), nameLeaf]

/-- **`flatfs_htree_insert` on the map**: it puts the name where it is not, if the name is not
    behind a free entry. -/
theorem flatfsHtreeInsert_map (hino0 : ino ≠ 0) (hino : ino < 256 ^ 8)
    (hH : (deSlots (nameLeaf s dir name)).HoleFree 32 name) :
    ∃ e s', flatfsHtreeInsert s dir name ino ftype = some (e, s') ∧ DirOk s' dir ∧
      (e = .exist ↔ dirFind s dir name ≠ none) ∧
      dirFind s' dir = if e = .ok then update (dirFind s dir) name (some ino) else dirFind s dir := by
  have hle := hN.le
  have hL := hok.nameLeaf name
  obtain ⟨⟨e, s'⟩, he, hr⟩ := flatfsHtreeInsert_outcome
    hok.wf hok.self (.inl (by rw [hN.fstrlen]; omega))
  refine ⟨e, s', he, ?_⟩
  have hempty : s.val (.hleaf dir (callHash name / 16777216)) = 0 → dirFind s dir name = none := by
    intro h0
    unfold dirFind Slots.find
    rw [← scanMatch_eq hok hN, scanMatch_of_no_leaf h0]
    rfl
  cases hr with
  | corrupt h => exact absurd hok.root h
  | tooLong h => grind [hN.fstrlen, nameMax]
  | noRoom h0 => exact ⟨hok, by simp [hempty h0], (if_neg (by simp)).symm⟩
  | full s' hs hstep =>
    rw [scanFit_eq hok hN] at hs
    have hnone : dirFind s dir name = none := Slots.firstFit_none hs
    refine ⟨hok.step hstep hok.leaf, by simp [hnone], ?_⟩
    rw [if_neg (by simp), dirFind_keep hstep]
  | found s' i hs hi hstep =>
    rw [scanFit_eq hok hN] at hs
    rw [hN.callLeaf] at hi
    have hhit := Slots.firstFit_hit hs (deSlots_eq_none.not.2 hi)
    have hsome : dirFind s dir name ≠ none := fun h0 => by
      rw [Slots.find_eq_none.1 h0 i (Slots.firstFit_lt hs)] at hhit
      cases hhit
    refine ⟨hok.step hstep hok.leaf, by simp [hsome], ?_⟩
    rw [if_neg (by simp), dirFind_keep hstep]
  | put s' i hs hi hstep =>
    rw [scanFit_eq hok hN] at hs
    rw [hN.callLeaf] at hi
    have hfree := deSlots_eq_none.2 hi
    have hnone : dirFind s dir name = none := Slots.firstFit_free hs hfree hH
    rw [hN.callLeaf, hN.callHash, hN.fstrlen, ← bucketOf] at hstep
    refine ⟨hok.step hstep fun b hb => ?_, by simp [hnone], ?_⟩
    · by_cases hbb : b = bucketOf name
      · rw [hbb, update_self]
        exact leafOk_put hL hN hino0 hino hnone rfl
      grind [hok.leaf]
    · rw [if_pos rfl]
      exact dirFind_update hstep (find_put hL hN hino0 hino hnone (Slots.firstFit_lt hs) hi)

theorem flatfsHtreeRemove_map : ∃ e s', flatfsHtreeRemove s dir name = (e, s') ∧ DirOk s' dir ∧
    dirFind s' dir = if e = .ok then update (dirFind s dir) name none else dirFind s dir := by
  have hr := flatfsHtreeRemove_outcome name hok.wf hok.self
  generalize flatfsHtreeRemove s dir name = r at hr
  refine ⟨r.1, r.2, rfl, ?_⟩
  cases hr with
  | corrupt h => exact absurd hok.root h
  | absent h => exact ⟨hok, (if_neg (by simp)).symm⟩
  | clear s' i hs hstep =>
    rw [scanMatch_eq hok hN] at hs
    rw [hN.callLeaf, hN.callHash, ← bucketOf] at hstep
    have hi := mem_range.1 (mem_of_find?_eq_some hs)
    refine ⟨hok.step hstep fun b hb => ?_, ?_⟩
    · by_cases hbb : b = bucketOf name
      · grind [leafOk_clear, hok.nameLeaf]
      grind [hok.leaf]
    · rw [if_pos rfl]
      exact dirFind_update hstep (find_cleared (hok.nameLeaf name) hi (List.find?_some hs))

end Map

/-! ## 6. A new directory -/

section Init

variable {s : FS} {dir rb : Nat}

/-- An inode that gets another hash-tree root: only the slots of its hash tree change. -/
theorem val_setHroot {i : Inode} (hm : i.mapped = (s.inode dir).mapped)
    (hd : i.data = (s.inode dir).data) (hdir : dir < s.super.totalInodes) :
    (∀ a, a.ofDir dir = false → (s.setInode dir i).val a = s.val a) ∧
    (s.setInode dir i).val (.hroot dir) = i.dirHtreeBlk ∧
    ∀ b, (s.setInode dir i).val (.hleaf dir b) = childOf s i.dirHtreeBlk b := by
  have hself : (s.setInode dir i).inode dir = i := update_self ..
  have hroot : ∀ x k, rootPtr (s.setInode dir i) x k = rootPtr s x k := by
    intro x k
    by_cases hx : x = dir
    · subst hx
      unfold rootPtr Inode.blkPtr
      rw [hself, hm, hd]
      rfl
    · unfold rootPtr FS.setInode
      simp only [update_of_ne hx]
  have hht : ∀ x, x ≠ dir → htreeBlk (s.setInode dir i) x = htreeBlk s x := by
    intro x hx
    unfold htreeBlk FS.setInode
    simp only [update_of_ne hx]
  have hnew : htreeBlk (s.setInode dir i) dir = i.dirHtreeBlk := by
    unfold htreeBlk
    rw [hself]
    exact if_pos hdir
  refine ⟨fun a ha => ?_, hnew, fun b => ?_⟩
  · cases a with
    | hroot x => exact hht x (by simpa [Slot.ofDir] using ha)
    | hleaf x b =>
      show childOf _ (htreeBlk _ x) b = childOf s (htreeBlk s x) b
      rw [hht x (by simpa [Slot.ofDir] using ha)]
      rfl
    | _ => simp only [FS.val, hroot] <;> rfl
  · show childOf _ (htreeBlk _ dir) b = _
    rw [hnew]
    rfl

/-- The block `flatfs_htree_init` writes. -/
def newRoot (c : Bytes) : Bytes :=
  rtSeal (putLE (putLE (fill c 0 4096 fun _ => 0) 0 4 htreeMagic) 8 4 1)

/-- The inode `flatfs_htree_init` writes, before its checksum. -/
def Inode.withRoot (i : Inode) (rb : Nat) : Inode :=
  { i with dirHtreeBlk := rb, htreeDepth := 1, flags := i.flags ||| flHtree }

theorem rtMagic_newRoot (c : Bytes) : rtMagic (newRoot c) = htreeMagic := by
  unfold newRoot
  rw [rtMagic_seal]
  unfold rtMagic
  rw [leAt_putLE_of_disjoint (by omega)]
  exact leAt_putLE_self (show 0x46485452 < 256 ^ 4 by omega)

theorem rtChild_newRoot (c : Bytes) (hb : b < 256) : rtChild (newRoot c) b = 0 := by
  grind [newRoot, rtChild_seal, rtChild, leAt_putLE_of_disjoint, leAt_eq_zero, fill_of_mem]

theorem Inode.withRoot_mapped (i : Inode) (rb : Nat) : (i.withRoot rb).mapped = i.mapped := by
  unfold Inode.mapped Inode.isInline
  show (i.inodeMagic != 0 && !((i.flags ||| flHtree) &&& flInline != 0)) = _
  grind [flHtree, flInline]

theorem Inode.mapped_setCrc (i : Inode) (c : Nat) : Inode.mapped { i with crc32 := c } = i.mapped :=
  rfl

theorem flatfsHtreeInit_eq (rb : Nat) (hD : DirSelf s dir) : flatfsHtreeInit s dir rb =
    (.ok, (s.setBlk rb (newRoot (s.blk rb))).setInode dir
      { (s.inode dir).withRoot rb with crc32 := inodeCrc ((s.inode dir).withRoot rb) }) :=
  flatfsInodeWrite_set (i := (s.inode dir).withRoot rb) hD.self hD.pos hD.lt

theorem flatfsHtreeInit_ok (hW : Wf s) (hD : DirSelf s dir) (hrb : rb ≠ 0) (ha : s.Allocated rb)
    (hno : ∀ a, s.val a ≠ rb) : ∃ s0, flatfsHtreeInit s dir rb = (.ok, s0) ∧ DirOk s0 dir ∧
      ∀ b, leafBytes s0 dir b = zeroBytes := by
  generalize hc : newRoot (s.blk rb) = c
  obtain ⟨i', hi'⟩ : ∃ i', i' = { (s.inode dir).withRoot rb with
    crc32 := inodeCrc ((s.inode dir).withRoot rb) } := ⟨_, rfl⟩
  have hinit := flatfsHtreeInit_eq rb hD
  rw [hc, ← hi'] at hinit
  have hmap : i'.mapped = (s.inode dir).mapped := by
    rw [hi', Inode.mapped_setCrc, Inode.withRoot_mapped]
  obtain ⟨h1, h2, h3⟩ := val_setHroot (s := s.setBlk rb c) (i := i') hmap
    (by rw [hi']; rfl) hD.lt
  rw [show i'.dirHtreeBlk = rb by rw [hi']; rfl] at h2 h3
  rw [val_setBlk fun a _ _ => hno a] at h1
  have h3' : ∀ b, ((s.setBlk rb c).setInode dir i').val (.hleaf dir b) = 0 := by
    intro b
    rw [h3 b]
    unfold childOf
    split
    · rfl
    · rw [FS.setBlk_blk_self]
      rw [← hc]
      exact rtChild_newRoot _ (by omega)
  have hleaf : ∀ b, leafBytes ((s.setBlk rb c).setInode dir i') dir b = zeroBytes :=
    fun b => if_pos (h3' b)
  have hcases : ∀ a, ((s.setBlk rb c).setInode dir i').val a = 0 ∨
      (a = .hroot dir ∧ ((s.setBlk rb c).setInode dir i').val a = rb) ∨
      (a ≠ .hroot dir ∧ ((s.setBlk rb c).setInode dir i').val a = s.val a) := by
    intro a
    by_cases ha : a.ofDir dir = true
    · cases a with
      | hroot x => grind [Slot.ofDir]
      | hleaf x b => grind [Slot.ofDir]
      | _ => cases ha
    · grind
  refine ⟨_, hinit, ⟨⟨?_, hW.dataPos, fun a hv => ?_, fun a b hab hv => ?_⟩, ⟨hD.lt, hD.pos, ?_⟩,
    ⟨?_, ?_⟩, fun b _ => ?_⟩, hleaf⟩
  · exact hW.inv.congr rfl rfl rfl rfl rfl
  · rcases hcases a with h0 | ⟨-, h⟩ | ⟨-, h⟩
    · exact absurd h0 hv
    · rw [h]; exact ha
    · rw [h] at hv ⊢; exact hW.own.alloc a hv
  · rcases hcases a with h0 | ⟨ea, h⟩ | ⟨ea, h⟩
    · exact absurd h0 hv
    · grind
    · rcases hcases b with h0' | ⟨eb, h'⟩ | ⟨eb, h'⟩
      · exact absurd (hab.trans h0') hv
      · exact absurd (h.symm.trans (hab.trans h')) (hno a)
      grind [hW.own.inj]
  · rw [show ((s.setBlk rb c).setInode dir i').inode dir = i' from update_self .., hi']
    exact hD.self
  · rw [h2]; exact hrb
  · rw [h2]
    show rtMagic ((s.setBlk rb c).blk rb) = _
    rw [FS.setBlk_blk_self, ← hc, rtMagic_newRoot]
  · rw [hleaf]
    have hz : ∀ j, deIno zeroBytes j = 0 := fun j => leAt_zeroBytes _ _
    refine ⟨fun j _ h => absurd (hz j) h, fun j _ h => absurd (hz j) h, fun j _ h => absurd (hz j) h,
      fun j _ _ _ k h => ?_⟩
    obtain ⟨v, hv⟩ := Slots.hit_iff.1 h
    rw [deSlots_zero] at hv
    cases hv

theorem dirFind_zero (h : ∀ b, leafBytes s dir b = zeroBytes) (name : Text) :
    dirFind s dir name = none := by
  refine Slots.find_eq_none.2 fun j _ => ?_
  unfold nameLeaf Slots.hit
  rw [h, deSlots_zero]

end Init

/-! ## 7. Runs on one directory -/

/-- A call on a directory. -/
inductive DirOp where
  | insert (name : Text) (ino ftype : Nat)
  | remove (name : Text)
  | lookup (name : Text)

/-- The code a call returns and what it stores through `out_ino`; `none` for a write outside the
    leaf block. -/
abbrev DirAns := Option (FlatfsErr × Option Nat)

def dirCall (dir : Nat) (s : FS) : DirOp → DirAns × FS
  | .insert name ino ftype =>
    match flatfsHtreeInsert s dir name ino ftype with
    | some (e, s') => (some (e, none), s')
    | none => (none, s)
  | .remove name =>
    match flatfsHtreeRemove s dir name with
    | (e, s') => (some (e, none), s')
  | .lookup name =>
    match flatfsHtreeLookup s dir name with
    | .ok ino => (some (.ok, some ino), s)
    | .error e => (some (e, none), s)

/-- The calls this is about: names of 1 to 108 bytes, non-zero 64-bit inode numbers. -/
def DirOp.Admissible : DirOp → Prop
  | .insert name ino _ => NameOk name ∧ ino ≠ 0 ∧ ino < 256 ^ 8
  | .remove name => NameOk name
  | .lookup name => NameOk name

/-- **The condition**: an insertion does not meet a free entry before the entry of its name. -/
def DirOp.HoleFree (dir : Nat) (s : FS) : DirOp → Prop
  | .insert name _ _ => (deSlots (nameLeaf s dir name)).HoleFree 32 name
  | _ => True

/-- The inode of the latest successful insertion of a name, unless it was removed since; the log
    has the newest call first. -/
def latest : Log DirOp DirAns → Text → Option Nat
  | [], _ => none
  | (.insert name ino _, some (.ok, _)) :: h, x => if x = name then some ino else latest h x
  | (.remove name, some (.ok, _)) :: h, x => if x = name then none else latest h x
  | _ :: h, x => latest h x

/-- **The laws of a directory** in the state `s` the log `h` led to. -/
structure DirLaws (dir : Nat) (h : Log DirOp DirAns) (s : FS) : Prop where
  /-- no two live entries carry the same name -/
  uniq : ∀ b < 256, ∀ i < 32, ∀ b' < 256, ∀ j < 32, deIno (leafBytes s dir b) i ≠ 0 →
    deIno (leafBytes s dir b') j ≠ 0 →
    deName (leafBytes s dir b) i = deName (leafBytes s dir b') j → b = b' ∧ i = j
  lookup : ∀ name, NameOk name → flatfsHtreeLookup s dir name =
    match latest h name with
    | some ino => .ok ino
    | none => .error .notfound
  exist : ∀ name ino ftype ans h', h = (.insert name ino ftype, ans) :: h' →
    (ans = some (.exist, none) ↔ latest h' name ≠ none)
  removed : ∀ name h', h = (.remove name, some (.ok, none)) :: h' →
    flatfsHtreeLookup s dir name = .error .notfound

section Laws

variable {dir : Nat} {s : FS} {h : Log DirOp DirAns}

theorem DirOk.uniqueNames (hok : DirOk s dir) {b' j : Nat} (hb : b < 256) (hi : i < 32)
    (hb' : b' < 256) (hj : j < 32) (h1 : deIno (leafBytes s dir b) i ≠ 0)
    (h2 : deIno (leafBytes s dir b') j ≠ 0)
    (hn : deName (leafBytes s dir b) i = deName (leafBytes s dir b') j) : b = b' ∧ i = j := by
  have hbb : b = b' := by
    rw [← (hok.leaf b hb).bucket i hi h1, ← (hok.leaf b' hb').bucket j hj h2, hn]
  subst hbb
  refine ⟨rfl, (hok.leaf b hb).uniq i hi j hj (deName (leafBytes s dir b) i) ?_ ?_⟩
  · exact Slots.hit_iff.2 ⟨_, if_neg h1⟩
  · rw [hn]
    exact Slots.hit_iff.2 ⟨_, if_neg h2⟩

theorem dirCall_insert {e : FlatfsErr} (he : flatfsHtreeInsert s dir name ino ftype = some (e, s')) :
    dirCall dir s (.insert name ino ftype) = (some (e, none), s') := by
  unfold dirCall
  dsimp only
  rw [he]

theorem dirCall_remove {e : FlatfsErr} (he : flatfsHtreeRemove s dir name = (e, s')) :
    dirCall dir s (.remove name) = (some (e, none), s') := by
  unfold dirCall
  dsimp only
  rw [he]

/-- **One call**: the directory stays well formed, and its map follows the log. -/
theorem dirCall_latest (hok : DirOk s dir) (hm : dirFind s dir = latest h) {op : DirOp}
    (ha : op.Admissible) (hH : op.HoleFree dir s) : DirOk (dirCall dir s op).2 dir ∧
      dirFind (dirCall dir s op).2 dir = latest ((op, (dirCall dir s op).1) :: h) ∧
      ∀ name ino ftype, op = .insert name ino ftype →
        ((dirCall dir s op).1 = some (.exist, none) ↔ latest h name ≠ none) := by
  cases op with
  | insert name ino ftype =>
    obtain ⟨hN, h0, hlt⟩ := ha
    obtain ⟨e, s', he, hok', hex, hf⟩ := flatfsHtreeInsert_map hok hN h0 hlt hH
    rw [dirCall_insert he]
    refine ⟨hok', ?_, ?_⟩
    · rw [hf, hm]
      funext x
      by_cases hok : e = .ok
      · subst hok
        rw [if_pos rfl, update_apply]
        rfl
      · rw [if_neg hok]
        cases e <;> first | rfl | exact absurd rfl hok
    · rintro _ _ _ ⟨⟩
      rw [← hm, ← hex]
      simp
  | remove name =>
    obtain ⟨e, s', he, hok', hf⟩ := flatfsHtreeRemove_map hok ha
    rw [dirCall_remove he]
    refine ⟨hok', ?_, fun _ _ _ he => by cases he⟩
    rw [hf, hm]
    funext x
    by_cases hok : e = .ok
    · subst hok
      rw [if_pos rfl, update_apply]
      rfl
    · rw [if_neg hok]
      cases e <;> first | rfl | exact absurd rfl hok
  | lookup name =>
    have hs : (dirCall dir s (.lookup name)).2 = s := by
      unfold dirCall
      dsimp only
      split <;> rfl
    rw [hs]
    exact ⟨hok, hm, fun _ _ _ he => by cases he⟩

/-- What a run keeps. -/
structure DirInv (dir : Nat) (h : Log DirOp DirAns) (s : FS) : Prop where
  ok : DirOk s dir
  map : dirFind s dir = latest h
  exist : ∀ name ino ftype ans h', h = (.insert name ino ftype, ans) :: h' →
    (ans = some (.exist, none) ↔ latest h' name ≠ none)
  removed : ∀ name ans h', h = (.remove name, ans) :: h' → NameOk name

/-- **`flatfs_htree_*` is a map**: after `flatfs_htree_init` on a block of its own, in every run
    in which no insertion meets a free entry before the entry of its name, the laws hold in every
    state reached. -/
theorem flatfsHtree_map (s0 s1 : FS) (dir rb : Nat) (hW : Wf s0) (hD : DirSelf s0 dir)
    (hrb : rb ≠ 0) (ha : s0.Allocated rb) (hno : ∀ a, s0.val a ≠ rb)
    (hinit : flatfsHtreeInit s0 dir rb = (.ok, s1)) (h : Log DirOp DirAns) (s : FS)
    (hr : Reach (fun s op => op.Admissible ∧ op.HoleFree dir s) (dirCall dir) s1 h s) : DirLaws dir h s := by
  obtain ⟨s1', he, hok1, hz⟩ := flatfsHtreeInit_ok hW hD hrb ha hno
  obtain rfl : s1' = s1 := (Prod.mk.inj (he.symm.trans hinit)).2
  have inv : DirInv dir h s := by
    refine hr.inv (I := DirInv dir) ⟨hok1, funext (dirFind_zero hz), fun _ _ _ _ _ e => by simp at e,
      fun _ _ _ e => by simp at e⟩ ?_
    rintro h s op ⟨hok, hm, -, -⟩ ⟨ha, hH⟩
    obtain ⟨h1, h2, h3⟩ := dirCall_latest hok hm ha hH
    refine ⟨h1, h2, fun name ino ftype ans h' e => ?_, fun name ans h' e => ?_⟩
    · grind
    · obtain ⟨e1, rfl⟩ := List.cons.inj e
      obtain ⟨rfl, rfl⟩ := Prod.mk.inj e1
      exact ha
  obtain ⟨hok, hm, hex, hrem⟩ := inv
  have hlook : ∀ name, NameOk name → flatfsHtreeLookup s dir name =
      match latest h name with
      | some ino => .ok ino
      | none => .error .notfound := by
    intro name hN
    rw [flatfsHtreeLookup_eq_dirFind hok hN, hm]
  refine ⟨fun b hb i hi b' hb' j hj => hok.uniqueNames hb hi hb' hj, hlook, hex, ?_⟩
  grind [latest]

end Laws

/-! ## 8. Two runs -/

/-- The inode of an empty directory that has no hash tree yet. -/
def bareDir : Inode := { ino := 1, mode := 0o040755, nlink := 2, inodeMagic := inodeMagicValue }

/-- A formatted file system with that inode and one block taken for its hash tree. -/
def beforeInit : FS := ((mounted1100 fun _ => {}).over bareDir).takeBit 0

/-- The directory made from it. -/
def newDir : FS := (flatfsHtreeInit beforeInit 1 1034).2

theorem dirSelf_beforeInit : DirSelf beforeInit 1 := ⟨by decide, by decide, rfl⟩

theorem beforeInit_ok : Wf beforeInit ∧ beforeInit.Allocated 1034 ∧ ∀ a, beforeInit.val a ≠ 1034 := by
  have hinode : ∀ x, ((mounted1100 fun _ => {}).over bareDir).inode x = bareDir ∨
      ((mounted1100 fun _ => {}).over bareDir).inode x = {} := by
    intro x
    by_cases h1 : x = 1
    · subst h1; exact .inl rfl
    · exact .inr (update_of_ne h1 ..)
  have hW : Wf ((mounted1100 fun _ => {}).over bareDir) := by
    refine wf_of_no_pointers (fun x k => ?_) (fun x => ?_) (allocInv_over.2 allocInv_1100) (by decide)
    · unfold rootPtr
      split
      · rcases hinode x with e | e <;> rw [e] <;> exact leAt_zeroBytes _ _
      · rfl
    · unfold htreeBlk
      split
      · rcases hinode x with e | e
        · rw [e]; rfl
        · rw [e]
      · rfl
  have hF := fresh_takeBit hW (k := 0) (by decide) rfl
    (allocInv_takeBit hW.inv (by decide) rfl fun j hj => absurd hj (by omega))
  refine ⟨hF.wf, (hF.alloc 1034).2 (.inl rfl), ?_⟩
  rw [beforeInit, hF.val]
  exact hF.no

theorem newDir_ok : flatfsHtreeInit beforeInit 1 1034 = (.ok, newDir) ∧ DirOk newDir 1 ∧
    ∀ b, leafBytes newDir 1 b = zeroBytes := by
  obtain ⟨hW, ha, hno⟩ := beforeInit_ok
  obtain ⟨s0, he, hok, hz⟩ := flatfsHtreeInit_ok hW dirSelf_beforeInit (by decide) ha hno
  obtain rfl : newDir = s0 := congrArg Prod.snd he
  exact ⟨he, hok, hz⟩

/-- Two names of bucket 63. -/
def nameAl : Text := [97, 108]

def nameBb : Text := [98, 98]

theorem nameOk_al : NameOk nameAl := ⟨by decide, by decide, by decide⟩

theorem nameOk_bb : NameOk nameBb := ⟨by decide, by decide, by decide⟩

theorem flatfsHtree_map_calls : ∃ h s, Reach (fun s op => op.Admissible ∧ op.HoleFree 1 s) (dirCall 1) newDir h s ∧
    h.map Prod.fst = [.remove nameAl, .lookup nameBb, .insert nameAl 5 8] ∧ DirLaws 1 h s := by
  obtain ⟨hW, ha, hno⟩ := beforeInit_ok
  obtain ⟨hinit, -, hz⟩ := newDir_ok
  have hfree : DirOp.HoleFree 1 newDir (.insert nameAl 5 8) := by
    intro j hj hh
    rw [Slots.find_eq_none.1 (dirFind_zero hz nameAl) j hj] at hh
    cases hh
  have hr : Reach (fun s op => DirOp.Admissible op ∧ op.HoleFree 1 s) (dirCall 1) newDir _ _ :=
    .step [] newDir (DirOp.insert nameAl 5 8) .start ⟨⟨nameOk_al, by decide, by decide⟩, hfree⟩
  have hr := (hr.step _ _ (DirOp.lookup nameBb) ⟨nameOk_bb, trivial⟩).step _ _ (DirOp.remove nameAl) ⟨nameOk_al, trivial⟩
  exact ⟨_, _, hr, rfl, flatfsHtree_map beforeInit newDir 1 1034 hW dirSelf_beforeInit (by decide) ha hno hinit _ _ hr⟩

section Duplicate

theorem flatfsHtreeRemove_at {rt lb : Nat} (hr : htroot s dir = some rt) (hm : rtMagic (s.blk rt) = htreeMagic)
    (hc : rtChild (s.blk rt) (flatfsHashName name (fstrlen name nameMax) / 16777216) = lb) (h0 : lb ≠ 0)
    (hi : (List.range direntsPerBlk).find? (deMatches (s.blk lb) (flatfsHashName name (fstrlen name nameMax))
      (fstrlen name nameMax) name) = some i) : flatfsHtreeRemove s dir name = clearedAt s dir rt lb i := by
  unfold flatfsHtreeRemove
  simp only [hr, hm, hc, hi, h0, ne_eq, not_true_eq_false, if_false]

/-- The directory with `al` and `bb`, both in the leaf at block 1035. -/
def alBb : FS := (dirCall 1 (dirCall 1 newDir (.insert nameAl 5 8)).2 (.insert nameBb 6 8)).2

set_option maxRecDepth 100000 in
theorem alBb_remove : flatfsHtreeRemove alBb 1 nameAl = (.ok, (clearedAt alBb 1 1034 1035 0).2) ∧
    (dirCall 1 (clearedAt alBb 1 1034 1035 0).2 (.insert nameBb 7 8)).1 = some (.ok, none) := by
  have hr : htroot alBb 1 = some 1034 := by decide +kernel
  have he : flatfsHtreeRemove alBb 1 nameAl = clearedAt alBb 1 1034 1035 0 :=
    flatfsHtreeRemove_at hr (by decide +kernel) (by decide +kernel) (by decide) (by decide +kernel)
  have hok : ∀ r : Done, r.1 = .ok → r = (.ok, r.2) := fun r h => Prod.ext h rfl
  exact ⟨he.trans (hok _ (by decide +kernel)), by decide +kernel⟩

set_option maxRecDepth 100000 in
/-- **The freed entry hides the name**: `al` and `bb` share a bucket; after `al` is removed, the
    second insertion of `bb` succeeds, and two live entries carry the name. -/
theorem flatfsHtree_duplicate : Wf beforeInit ∧ DirSelf beforeInit 1 ∧ beforeInit.Allocated 1034 ∧
    (∀ a, beforeInit.val a ≠ 1034) ∧ flatfsHtreeInit beforeInit 1 1034 = (.ok, newDir) ∧
    ∃ s, Reach (fun _ op => op.Admissible) (dirCall 1) newDir
        [(.insert nameBb 7 8, some (.ok, none)), (.remove nameAl, some (.ok, none)),
          (.insert nameBb 6 8, some (.ok, none)), (.insert nameAl 5 8, some (.ok, none))] s ∧ ¬ DirLaws 1
        [(.insert nameBb 7 8, some (.ok, none)), (.remove nameAl, some (.ok, none)),
          (.insert nameBb 6 8, some (.ok, none)), (.insert nameAl 5 8, some (.ok, none))] s := by
  obtain ⟨hW, ha, hno⟩ := beforeInit_ok
  refine ⟨hW, dirSelf_beforeInit, ha, hno, newDir_ok.1, ?_⟩
  have hr1 := (Reach.start : Reach (fun _ op => op.Admissible) (dirCall 1) newDir [] newDir).eval
    (i := .insert nameAl 5 8) (o := some (.ok, none)) ⟨nameOk_al, by decide, by decide⟩ (by decide +kernel)
  have hr2 : Reach _ _ _ _ alBb := hr1.eval (i := .insert nameBb 6 8) (o := some (.ok, none))
    ⟨nameOk_bb, by decide, by decide⟩ (by decide +kernel)
  obtain ⟨he3, he4⟩ := alBb_remove
  have hr3 := hr2.next (i := .remove nameAl) nameOk_al (dirCall_remove he3)
  refine ⟨_, hr3.eval (i := .insert nameBb 7 8) ⟨nameOk_bb, by decide, by decide⟩ he4, fun hlaws => ?_⟩
  exact absurd ((hlaws.exist nameBb 7 8 _ _ rfl).2 (by decide)) (by decide)

end Duplicate

end Kobalt.Flatfs
