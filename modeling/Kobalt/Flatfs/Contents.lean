/-
  Subject: READING BACK WHAT WAS WRITTEN (`flatfs_file_pwrite` followed by `flatfs_file_pread`).

  The bytes of a file are `fileByte`: the union of an inline inode, or the bytes of the logical
  blocks. One round of the write loop changes one logical block (`Wrote`), the whole loop gives
  every block `wroteBlock` (`pwriteLoop_spec`), and the read loop returns the bytes of the blocks
  (`preadLoop_eq`).

  A block of a checksummed file keeps its seal in its own last bytes, and the conversion of an
  inline file seals block 0 whatever the flags say, so a write is not always read back:
  `flatfsFilePwrite_reads_back_iff` says exactly when it is.
-/
import Kobalt.Flatfs.Own

namespace Kobalt.Flatfs

open Function List

variable {b c : Bytes} {s' : FS} {i' i1 : Inode} {d : Text} {n off : Nat} {cur : Nat → Bytes}

section Contents

variable (mac : Mac)

/-! ## 1. Sealed blocks -/

/-- The position in a block where the seal starts. -/
def sealStart : Nat :=
  match mac with
  | none => 4092
  | some _ => 4084

theorem sealBlock_of_lt {j : Nat} (h : j < sealStart mac) : sealBlock mac b j = b j := by
  unfold sealBlock flatfsBlockCrcSet flatfsTykidMacSet
  unfold sealStart at h
  cases mac with
  | none => exact fill_of_not_mem (.inl h)
  | some f =>
    refine (fill_of_not_mem (.inl ?_)).trans (fill_of_not_mem (.inl h))
    grind

theorem flatfsTykidMacSet_congr (h : ∀ j < 4096, b j = c j) :
    ∀ j < 4096, flatfsTykidMacSet mac b 4096 j = flatfsTykidMacSet mac c 4096 j := by
  intro j hj
  unfold flatfsTykidMacSet
  cases mac with
  | none => exact h j hj
  | some f =>
    have hb : bytesAt b 0 (4096 - 12) = bytesAt c 0 (4096 - 12) :=
      bytesAt_congr fun x _ hx => h x (by omega)
    simp only [hb]
    exact fill_congr (h j hj) ..

theorem flatfsBlockCrcSet_congr (h : ∀ j < 4096, b j = c j) :
    ∀ j < 4096, flatfsBlockCrcSet b 4096 j = flatfsBlockCrcSet c 4096 j := by
  intro j hj
  have hb : bytesAt b 0 (4096 - 4) = bytesAt c 0 (4096 - 4) :=
    bytesAt_congr fun x _ hx => h x (by omega)
  simp only [flatfsBlockCrcSet, hb]
  exact fill_congr (h j hj) ..

theorem sealBlock_congr (h : ∀ j < 4096, b j = c j) : ∀ j < 4096, sealBlock mac b j = sealBlock mac c j :=
  flatfsBlockCrcSet_congr (flatfsTykidMacSet_congr mac h)

/-- The checks `flatfs_file_read_blk` makes on a block of a checksummed file. -/
def blockPasses (c : Bytes) : Bool := flatfsBlockCrcOk c 4096 && flatfsTykidMacOk mac c 4096

theorem blockPasses_sealBlock (b : Bytes) : blockPasses mac (sealBlock mac b) = true := by
  unfold blockPasses
  rw [Bool.and_eq_true]
  refine ⟨flatfsBlockCrcOk_set _ 4096 (by decide), ?_⟩
  unfold flatfsTykidMacOk
  cases mac with
  | none => rfl
  | some f =>
    have hlt : (f (bytesAt b 0 (4096 - 12))).toNat < 256 ^ 8 := UInt64.toNat_lt _
    have hmac : leAt (sealBlock (some f) b) (4096 - 12) 8 = (f (bytesAt b 0 (4096 - 12))).toNat := by
      unfold sealBlock flatfsBlockCrcSet
      rw [if_neg (by decide), leAt_putLE_of_disjoint (.inl (by decide))]
      exact leAt_putLE_self hlt
    have hpre : bytesAt (sealBlock (some f) b) 0 (4096 - 12) = bytesAt b 0 (4096 - 12) :=
      bytesAt_congr fun x _ hx => sealBlock_of_lt (some f) (by simpa [sealStart] using hx)
    grind

/-! ## 2. One block -/

/-- The bytes a block of the file gets that is written with `c`. -/
def storedAs (i : Inode) (c : Bytes) : Bytes := if i.hasCrc then sealBlock mac c else c

/-- Logical block `l` is a hole or passes the checks. -/
def LblkOk (t : FS) (i : Inode) (l : Nat) : Prop :=
  i.hasCrc = true → t.val (lslot i.ino l) ≠ 0 →
    blockPasses mac (t.blk (t.val (lslot i.ino l))) = true

variable {s : FS} {i : Inode}

/-- **`flatfs_file_read_blk`** returns the logical block if it passes, within the reach of the
    block map. -/
theorem flatfsFileReadBlk_eq_ok (hm : i.mapped = true) (hino : i.ino < s.super.totalInodes)
    {l : Nat} : flatfsFileReadBlk mac s i l = .ok c ↔
      l < 262666 ∧ LblkOk mac (s.over i) i l ∧ c = (s.over i).fileBlock i.ino l := by
  unfold flatfsFileReadBlk
  by_cases hl : l < 262666
  · rw [mapBlock_read hm hino hl]
    simp only [hl, true_and]
    unfold FS.fileBlock LblkOk
    rw [FS.over_blk]
    generalize (s.over i).val (lslot i.ino l) = v
    by_cases h0 : v = 0
    · grind
    · simp only [if_neg h0]
      rw [← blockPasses]
      grind
  grind [mapBlock_toobig]

/-- **One block written**: what `flatfs_file_write_blk` does when it succeeds. -/
structure Wrote (s : FS) (i : Inode) (l : Nat) (c : Bytes) (i' : Inode) (s' : FS) : Prop where
  wf : Wf (s'.over i')
  ext : Extends i i'
  disk : s'.inode = s.inode
  super : s'.super = { s.super with freeBlocks := s'.super.freeBlocks }
  lt : l < 262666
  block : ∀ l', (s'.over i').fileBlock i.ino l' =
    if l' = l then storedAs mac i c else (s.over i).fileBlock i.ino l'
  passes : ∀ l', l' ≠ l → (LblkOk mac (s'.over i') i l' ↔ LblkOk mac (s.over i) i l')
  sealed : LblkOk mac (s'.over i') i l

theorem flatfsFileWriteBlk_wrote (hm : i.mapped = true) (hino : i.ino < s.super.totalInodes)
    (hW : Wf (s.over i)) {l : Nat}
    (h : flatfsFileWriteBlk mac s i l c = (.ok, i', s')) : Wrote mac s i l c i' s' := by
  by_cases hl : l < 262666
  swap
  · grind [flatfsFileWriteBlk, mapBlock_toobig]
  have hw := mapWalk_walked hm hino hW hl
  unfold flatfsFileWriteBlk mapBlock at h
  generalize mapWalk s i l true = r at hw h
  obtain ⟨res, j, s1⟩ := r
  rcases res with e | _ | b
  · obtain rfl : e = .ok := (Prod.mk.inj h).1
    cases (hw.failed _ rfl).1
  · exact absurd rfl hw.noHole
  obtain ⟨hb, hv⟩ := hw.found b rfl
  obtain ⟨-, rfl, rfl⟩ : True ∧ j = i' ∧ s1.setBlk b (storedAs mac j c) = s' := by
    simpa [Except.map, storedAs] using h
  have hj : j.hasCrc = i.hasCrc := by rw [show j = _ from hw.ext.same]; rfl
  have hst : storedAs mac j c = storedAs mac i c := by unfold storedAs; rw [hj]
  have hdata := (lslot_isIndex i.ino l).1
  have hover : (s1.setBlk b (storedAs mac i c)).over j =
      (s1.over j).setBlk ((s1.over j).val (lslot i.ino l)) (storedAs mac i c) := by
    rw [FS.over_setBlk]
    rw [show (s1.over j).val (lslot i.ino l) = b from hv]
  have hv0 : (s1.over j).val (lslot i.ino l) ≠ 0 := by
    rw [show (s1.over j).val (lslot i.ino l) = b from hv]; exact hb
  have hvals := val_setBlk_data hw.grow.wf.own hdata (storedAs mac i c)
  rw [hst]
  refine ⟨?_, hw.ext, hw.disk, ?_, hl, fun l' => ?_, fun l' hne => ?_, ?_⟩
  · rw [hover]; exact wf_setBlk_data hw.grow.wf hdata _
  · exact hw.grow.super
  · rw [hover, fileBlock_setBlk hw.grow.wf _ hv0, hw.grow.fileBlock]
    simp only [true_and]
  · unfold LblkOk
    have hne' : lslot i.ino l' ≠ lslot i.ino l := fun e => hne (lslot_inj e).2
    have hval : (s1.over j).val (lslot i.ino l') = (s.over i).val (lslot i.ino l') :=
      hw.only _ (lslot_isIndex i.ino l').2 hne'
    rw [hover, hvals, hval]
    refine imp_congr_right fun _ => forall_congr' fun h0 => ?_
    rw [FS.setBlk_blk_of_ne, show (s1.over j).blk _ = _ from hw.grow.data _ (lslot_isIndex i.ino l').2 h0]
    intro e
    exact hne' (hw.grow.wf.own.inj _ _ (hval.trans e) (by rw [show FS.val _ _ = _ from hval]; exact h0))
  · intro hc _
    rw [hover, hvals, FS.setBlk_blk_self]
    unfold storedAs
    rw [if_pos hc]
    exact blockPasses_sealBlock mac c

/-! ## 3. The write loop -/

/-- Block `l` with the bytes of `d`, which belong at `off`, put in from position `a` to `e`. -/
def mergedBlock (cur : Nat → Bytes) (off a e : Nat) (d : Text) (l : Nat) : Bytes := fun j =>
  if a ≤ 4096 * l + j ∧ 4096 * l + j < e then d.getD (4096 * l + j - off) 0 else cur l j

/-- The positions from `a` to `e` meet block `l`. -/
def Touches (a e l : Nat) : Prop := a < e ∧ 4096 * l < e ∧ a < 4096 * (l + 1)

instance (a e l : Nat) : Decidable (Touches a e l) :=
  inferInstanceAs (Decidable (_ ∧ _ ∧ _))

/-- Block `l` after the positions from `a` to `e` were written. -/
def wroteBlock (i : Inode) (cur : Nat → Bytes) (off a e : Nat) (d : Text) (l : Nat) : Bytes :=
  if Touches a e l then storedAs mac i (mergedBlock cur off a e d l) else cur l

theorem storedAs_congr (i : Inode) (h : ∀ j < 4096, b j = c j) :
    ∀ j < 4096, storedAs mac i b j = storedAs mac i c j := by
  unfold storedAs
  grind [sealBlock_congr]

theorem Extends.storedAs {i : Inode} (h : Extends i i') (c : Bytes) : storedAs mac i' c = storedAs mac i c := by
  rw [h.same]; rfl

theorem Extends.lblkOk {i : Inode} (h : Extends i i') (t : FS) (l : Nat) :
    LblkOk mac t i' l ↔ LblkOk mac t i l := by
  rw [h.same]; rfl

/-- **The outcome of the write loop** for the positions from `a` to `e`. -/
structure LoopWrote (s : FS) (i : Inode) (off a e : Nat) (d : Text) (i' : Inode) (s' : FS) :
    Prop where
  ext : Extends i i'
  super : s'.super = { s.super with freeBlocks := s'.super.freeBlocks }
  le : a < e → e ≤ 4096 * 262666
  block : ∀ l, ∀ j < 4096, (s'.over i').fileBlock i.ino l j =
    wroteBlock mac i ((s.over i).fileBlock i.ino) off a e d l j
  passes : ∀ l, LblkOk mac (s'.over i') i l ↔ Touches a e l ∨ LblkOk mac (s.over i) i l

theorem LoopWrote.refl (s : FS) (i : Inode) (off a : Nat) (d : Text) :
    LoopWrote mac s i off a a d i s := by
  have hno : ∀ l, ¬ Touches a a l := fun l h => by unfold Touches at h; omega
  refine ⟨Extends.refl i, rfl, fun h => absurd h (by omega), fun l j _ => ?_, fun l => ?_⟩
  · unfold wroteBlock
    rw [if_neg (hno l)]
  grind

/-- **One round and the rest of the loop.** The round writes the part of one block that starts
    at `a`; the rest starts at the end of that block, or there is no rest. -/
theorem LoopWrote.round {s s1 : FS} {i : Inode} {a c e : Nat} (hoff : off ≤ a) (hc : a < c) (hce : c ≤ e)
    (hend : c = e ∧ e ≤ 4096 * (a / 4096 + 1) ∨ c = 4096 * (a / 4096 + 1))
    (hb : (∀ j < 4096, b j = (s.over i).fileBlock i.ino (a / 4096) j) ∨
      a % 4096 = 0 ∧ c = 4096 * (a / 4096 + 1)) (hw : Wrote mac s i (a / 4096)
      (fill b (a % 4096) (c - a) fun j => d.getD (a - off + j) 0) i1 s1)
    (hr : LoopWrote mac s1 i1 off c e d i' s') : LoopWrote mac s i off a e d i' s' := by
  have hino := hw.ext.ino
  have ht0 : Touches a e (a / 4096) := by unfold Touches; omega
  have hn0 : ¬ Touches c e (a / 4096) := by unfold Touches; omega
  have htouch : ∀ l, l ≠ a / 4096 → (Touches c e l ↔ Touches a e l) := by
    intro l hl
    unfold Touches
    omega
  -- the bytes put into the block of this round
  have hfill : ∀ j < 4096, fill b (a % 4096) (c - a) (fun j => d.getD (a - off + j) 0) j =
      mergedBlock ((s.over i).fileBlock i.ino) off a e d (a / 4096) j := by
    intro j hj
    unfold fill mergedBlock
    by_cases hin : a % 4096 ≤ j ∧ j < a % 4096 + (c - a)
    · grind
    · grind
  refine ⟨hw.ext.trans hr.ext, ?_, fun _ => ?_, fun l j hj => ?_,
    fun l => ?_⟩
  · rw [hr.super, hw.super]
  · grind [hw.lt, Nat.lt_or_ge, hr.le]
  · rw [← hino, hr.block l j hj, hino]
    unfold wroteBlock
    by_cases hl : l = a / 4096
    · subst hl
      rw [if_neg hn0, if_pos ht0, hw.block, if_pos rfl]
      exact storedAs_congr mac i hfill j hj
    · simp only [htouch l hl]
      split
      · rename_i ht
        rw [hw.ext.storedAs mac]
        refine storedAs_congr mac i (fun j hj => ?_) j hj
        -- past the block of this round both ranges start before the block
        have hge : a / 4096 + 1 ≤ l := by unfold Touches at ht; omega
        have ht' := (htouch l hl).2 ht
        unfold mergedBlock
        unfold Touches at ht'
        rw [hw.block, if_neg hl]
        grind
      · rw [hw.block, if_neg hl]
  · rw [← hw.ext.lblkOk mac, hr.passes, hw.ext.lblkOk mac]
    by_cases hl : l = a / 4096
    · grind [hw.sealed]
    · rw [htouch l hl, hw.passes l hl]

theorem pwriteLoop_wrote (fuel : Nat) :
    ∀ (s : FS) (i : Inode) (done : Nat), i.mapped = true → i.ino < s.super.totalInodes →
      Wf (s.over i) → off + done < 18446744073709551616 → done ≤ d.length →
      d.length - done ≤ fuel → pwriteLoop mac off d fuel s i done = (.ok n, i', s') →
      n = d.length ∧ LoopWrote mac s i off (off + done) (off + d.length) d i' s' := by
  induction fuel with
  | zero =>
    intro s i done _ _ hW _ hle hf h
    obtain ⟨hn, rfl, rfl⟩ : done = n ∧ i = i' ∧ s = s' := by
      simpa [pwriteLoop] using h
    obtain rfl : done = d.length := by omega
    exact ⟨hn.symm, LoopWrote.refl mac ..⟩
  | succ fuel ih =>
    intro s i done hm hino hW hlt hle hf h
    unfold pwriteLoop at h
    by_cases hdone : done < d.length
    · rw [if_pos hdone] at h
      simp only [u64_of_lt hlt] at h
      obtain ⟨chunk, hchunk⟩ : ∃ k, k = min (4096 - (off + done) % 4096) (d.length - done) := ⟨_, rfl⟩
      rw [← hchunk] at h
      split at h
      · cases h
      rename_i b hb
      -- the block starts from its old bytes, or every byte of it is replaced
      have hbase : (∀ j < 4096, b j = (s.over i).fileBlock i.ino ((off + done) / 4096) j) ∨
          (off + done) % 4096 = 0 ∧ off + (done + chunk) = 4096 * ((off + done) / 4096 + 1) := by
        split at hb
        · have hr := (flatfsFileReadBlk_eq_ok mac hm hino).1 hb
          exact .inl fun j _ => by rw [hr.2.2]
        · right; omega
      split at h
      · rename_i i1 s1 hw
        have hwr := flatfsFileWriteBlk_wrote mac hm hino hW hw
        have hlt' := hwr.lt
        have hrest := ih s1 i1 (done + chunk) (by rw [hwr.ext.mapped, hm])
          (by rw [hwr.ext.ino, hwr.super]; exact hino) hwr.wf (by omega) (by omega) (by omega) h
        have hfun : (fun j => d.getD (off + done - off + j) 0) = fun j => d.getD (done + j) 0 := by
          rw [Nat.add_sub_cancel_left]
        refine ⟨hrest.1, hrest.2.round mac (a := off + done) (b := b) (by omega) (by omega)
          (by omega) (by omega) hbase ?_⟩
        grind
      · cases h
    · rw [if_neg hdone] at h
      grind [LoopWrote.refl]

/-! ## 4. The read loop -/

/-- The byte at position `p` of a block-mapped file. -/
def mappedByte (t : FS) (ino p : Nat) : UInt8 := t.fileBlock ino (p / 4096) (p % 4096)

/-- **The read loop** succeeds exactly when every block it meets can be read, and then returns
    the bytes of the file. -/
theorem preadLoop_eq_ok (hm : i.mapped = true) (hino : i.ino < s.super.totalInodes) {len : Nat}
    (hlen : off + len < 18446744073709551616) (res : Text) (fuel : Nat) :
    ∀ out : Text, out.length ≤ len → len - out.length ≤ fuel →
      (preadLoop mac s i off len fuel out = .ok res ↔
        (∀ l, Touches (off + out.length) (off + len) l → l < 262666 ∧ LblkOk mac (s.over i) i l) ∧
        res = out ++ bytesAt (mappedByte (s.over i) i.ino) (off + out.length) (len - out.length)) := by
  have hstop : ∀ out : Text, out.length = len → (Except.ok out = Except.ok (ε := FlatfsErr) res ↔
      (∀ l, Touches (off + out.length) (off + len) l → l < 262666 ∧ LblkOk mac (s.over i) i l) ∧
      res = out ++ bytesAt (mappedByte (s.over i) i.ino) (off + out.length) (len - out.length)) := by
    intro out ho
    rw [ho, Nat.sub_self]
    simp only [bytesAt, range_zero, map_nil, append_nil, Except.ok.injEq]
    refine ⟨fun h => ⟨fun l hl => ?_, h.symm⟩, fun h => h.2.symm⟩
    unfold Touches at hl
    omega
  induction fuel with
  | zero =>
    intro out hle hf
    exact hstop out (by omega)
  | succ fuel ih =>
    intro out hle hf
    unfold preadLoop
    by_cases hlt : out.length < len
    swap
    · grind
    rw [if_pos hlt, u64_of_lt (by omega)]
    obtain ⟨pos, hpos⟩ : ∃ p, p = off + out.length := ⟨_, rfl⟩
    obtain ⟨chunk, hchunk⟩ : ∃ k, k = min (4096 - pos % 4096) (len - out.length) := ⟨_, rfl⟩
    rw [← hpos]
    simp only [← hchunk]
    have ht0 : Touches pos (off + len) (pos / 4096) := by unfold Touches; omega
    have htouch : ∀ l, Touches pos (off + len) l ↔
        l = pos / 4096 ∨ Touches (pos + chunk) (off + len) l := by
      intro l
      unfold Touches
      omega
    cases hr : flatfsFileReadBlk mac s i (pos / 4096) with
    | error e =>
      simp only [reduceCtorEq, false_iff]
      rintro ⟨hall, -⟩
      have hok := (flatfsFileReadBlk_eq_ok mac hm hino).2
        ⟨(hall _ ht0).1, (hall _ ht0).2, rfl⟩
      rw [hr] at hok
      cases hok
    | ok b =>
      obtain ⟨hl0, hok, rfl⟩ := (flatfsFileReadBlk_eq_ok mac hm hino).1 hr
      have hsame : bytesAt ((s.over i).fileBlock i.ino (pos / 4096)) (pos % 4096) chunk =
          bytesAt (mappedByte (s.over i) i.ino) pos chunk := by
        refine map_congr_left fun k hk => ?_
        have hk' := mem_range.mp hk
        unfold mappedByte
        rw [show (pos + k) / 4096 = pos / 4096 by omega, show (pos + k) % 4096 = pos % 4096 + k by omega]
      have hlen' : (out ++ bytesAt (mappedByte (s.over i) i.ino) pos chunk).length =
          out.length + chunk := by simp
      dsimp only
      rw [hsame, ih _ (by omega) (by omega), hlen', ← Nat.add_assoc, ← hpos, append_assoc,
        ← bytesAt_add, show chunk + (len - (out.length + chunk)) = len - out.length by omega]
      grind

/-! ## 5. A whole write -/

/-- **A consistent open file**: `i` is the call's copy of a live inode, the file system with it
    is well formed, and the blocks of a checksummed file pass the checks. -/
structure FileOk (s : FS) (i : Inode) : Prop where
  inoLt : i.ino < s.super.totalInodes
  live : i.inodeMagic ≠ 0
  sizeLt : i.size < 18446744073709551616
  wf : Wf (s.over i)
  passes : i.isInline = false → ∀ l, LblkOk mac (s.over i) i l

omit mac in
/-- **The bytes of a file.** -/
def fileByte (s : FS) (i : Inode) (p : Nat) : UInt8 :=
  if i.isInline then i.data p else mappedByte (s.over i) i.ino p

theorem flatfsFilePread_eq_ok (hino : i.ino < s.super.totalInodes) (hlive : i.inodeMagic ≠ 0)
    (hsize : i.size < 18446744073709551616) (res : Text) : flatfsFilePread mac s i 0 i.size = .ok res ↔
      (i.isInline = false → ∀ l, 4096 * l < i.size → l < 262666 ∧ LblkOk mac (s.over i) i l) ∧
      res = bytesAt (fileByte s i) 0 i.size := by
  unfold flatfsFilePread
  by_cases hin : i.isInline = true
  · have hfb : fileByte s i = i.data := by funext p; simp [fileByte, hin]
    rw [if_pos hin, hfb]
    unfold flatfsInlineRead
    simp only [hin, Bool.not_true, Bool.false_eq_true, if_false, Nat.sub_zero, Nat.min_self]
    by_cases h0 : 0 ≥ i.size
    · rw [if_pos h0, show i.size = 0 by omega]
      simp [bytesAt, eq_comm]
    · rw [if_neg h0]
      simp [eq_comm]
  · have hin' : i.isInline = false := by simpa using hin
    have hfb : fileByte s i = mappedByte (s.over i) i.ino := by funext p; simp [fileByte, hin]
    have hm : i.mapped = true := by simp [Inode.mapped, hlive, hin']
    rw [if_neg hin, hfb]
    by_cases h0 : 0 ≥ i.size
    · rw [if_pos h0, show i.size = 0 by omega]
      exact ⟨fun h => ⟨fun _ l hl => absurd hl (by omega), (Except.ok.inj h).symm⟩,
        fun h => h.2 ▸ rfl⟩
    · rw [if_neg h0]
      simp only [Nat.sub_zero, Nat.min_self]
      rw [preadLoop_eq_ok mac hm hino (by omega) res i.size [] (by simp) (by simp)]
      simp only [length_nil, Nat.add_zero, Nat.zero_add, Nat.sub_zero, nil_append, hin', true_implies]
      refine and_congr_left fun _ => forall_congr' fun l => ?_
      grind [Touches]

omit mac in
theorem flatfsInodeWrite_over {s : FS} {i : Inode} (h : flatfsInodeWrite s i = (.ok, s')) :
    s'.over i = s.over i ∧ s'.super = s.super ∧ i.ino < s.super.totalInodes := by
  unfold flatfsInodeWrite at h
  split at h
  · cases h
  · rename_i hb
    obtain rfl := (Prod.mk.inj h).2
    exact ⟨FS.setInode_setInode .., rfl, by omega⟩

omit mac in
theorem wf_over_congr {s : FS} {i j : Inode} (hW : Wf (s.over i)) (h : j.ino = i.ino)
    (hm : j.mapped = i.mapped) (hd : j.mapped = true → ∀ k < 12, j.blkPtr k = i.blkPtr k)
    (hh : j.dirHtreeBlk = i.dirHtreeBlk) : Wf (s.over j) :=
  wf_of_le hW (allocInv_over.2 (allocInv_over.1 hW.inv)) rfl (fun _ hb => hb)
    fun a => .inr (by rw [val_over_congr h hm hd hh])

/-- **What a write through blocks leaves behind.** -/
structure BlocksWrote (s : FS) (i : Inode) (off : Nat) (d : Text) (i' : Inode) (s' : FS) :
    Prop where
  same : i' = { i with data := i'.data, blocks := i'.blocks, size := i'.size }
  size : i'.size = max i.size (off + d.length)
  totalInodes : s'.super.totalInodes = s.super.totalInodes
  le : off + d.length ≤ 4096 * 262666
  block : ∀ l, ∀ j < 4096, (s'.over i').fileBlock i.ino l j =
    wroteBlock mac i ((s.over i).fileBlock i.ino) off off (off + d.length) d l j
  passes : ∀ l, LblkOk mac (s'.over i') i' l ↔
    Touches off (off + d.length) l ∨ LblkOk mac (s.over i) i l

theorem pwriteBlocks_wrote (hm : i.mapped = true) (hino : i.ino < s.super.totalInodes)
    (hW : Wf (s.over i)) (hd : d ≠ []) (hoff : off < 18446744073709551616)
    (h : pwriteBlocks mac s i off d = (.ok n, i', s')) : BlocksWrote mac s i off d i' s' := by
  unfold pwriteBlocks at h
  split at h
  · cases h
  rename_i done i1 s1 hl
  obtain ⟨hn, hw⟩ := pwriteLoop_wrote mac d.length s i 0 hm hino hW (by omega) (by omega) (by omega) hl
  rw [Nat.add_zero] at hw
  have hle := hw.le (by have := length_pos_iff.2 hd; omega)
  rw [hn, u64_of_lt (by omega)] at h
  obtain ⟨i2, hi2⟩ : ∃ j, j = if off + d.length > i1.size then { i1 with size := off + d.length }
    else i1 := ⟨_, rfl⟩
  have h2 : i2 = { i1 with size := max i1.size (off + d.length) } := by
    rw [hi2]
    split
    · rw [Nat.max_eq_right (by omega)]
    · rw [Nat.max_eq_left (by omega)]
  simp only [← hi2] at h
  split at h
  swap
  · cases h
  rename_i s2 hiw
  obtain ⟨-, rfl, rfl⟩ : _ ∧ i2 = i' ∧ s2 = s' := by simpa using h
  obtain ⟨hov, hsup, -⟩ := flatfsInodeWrite_over hiw
  have hsz : i1.size = i.size := by rw [hw.ext.same]
  have hval : (s1.over i2).val = (s1.over i1).val :=
    val_over_congr (by rw [h2]) (by rw [h2]; rfl) (fun _ _ _ => by rw [h2]; rfl) (by rw [h2])
  have hfb : ∀ l, (s1.over i2).fileBlock i.ino l = (s1.over i1).fileBlock i.ino l := by
    intro l
    unfold FS.fileBlock
    rw [hval]
    rfl
  refine ⟨?_, ?_, ?_, hle, fun l j hj => ?_, fun l => ?_⟩
  · rw [h2, hw.ext.same]
  · rw [h2, hsz]
  · rw [hsup, hw.super]
  · rw [hov, hfb]
    exact hw.block l j hj
  · rw [hov, ← hw.passes l]
    unfold LblkOk
    rw [hval, show i2.hasCrc = i.hasCrc by rw [h2, hw.ext.same]; rfl,
      show i2.ino = i.ino by rw [h2]; exact hw.ext.ino]
    rfl

/-! ## 6. From inline to blocks -/

omit mac in
/-- The block `flatfs_inline_to_block` makes of an inline file. -/
def inlineBlock (i : Inode) : Bytes := flatfsBlockCrcSet (fill zeroBytes 0 i.size i.data) 4096

omit mac in
theorem val_lslot_inline {s : FS} {i : Inode} (hin : i.isInline = true) (l : Nat) :
    (s.over i).val (lslot i.ino l) = 0 := by
  have hroot : ∀ k, rootPtr (s.over i) i.ino k = 0 := by
    intro k
    unfold rootPtr FS.over FS.setInode
    simp [Inode.mapped, hin]
  unfold lslot
  split
  · exact hroot l
  · split
    · show wordOf _ (rootPtr _ _ _) _ = 0
      rw [hroot]
      simp [wordOf]
    · show wordOf _ (wordOf _ (rootPtr _ _ _) _) _ = 0
      rw [hroot]
      simp [wordOf]

/-- **What the conversion leaves behind**: a block-mapped file of one block. -/
structure Converted (s : FS) (i i1 : Inode) (s1 : FS) : Prop where
  wf : Wf (s1.over i1)
  same : i1 = { i with data := i1.data, blocks := i1.blocks, flags := i1.flags }
  sizeLe : i.size ≤ 4096
  inline : i1.isInline = false
  crc : i1.hasCrc = i.hasCrc
  totalInodes : s1.super.totalInodes = s.super.totalInodes
  block : ∀ l, (s1.over i1).fileBlock i.ino l = if l = 0 then inlineBlock i else zeroBytes
  passes : ∀ l, LblkOk mac (s1.over i1) i1 l ↔
    (i.hasCrc = true → l = 0 → blockPasses mac (inlineBlock i) = true)

theorem flatfsInlineToBlock_converted (hin : i.isInline = true) (hlive : i.inodeMagic ≠ 0)
    (hW : Wf (s.over i)) {s1 : FS}
    (h : flatfsInlineToBlock s i = some (.ok, i1, s1)) : Converted mac s i i1 s1 := by
  unfold flatfsInlineToBlock at h
  simp only [hin, Bool.not_true, Bool.false_eq_true, if_false] at h
  rcases flatfsAllocBlock_over hW with ⟨-, he⟩ | ⟨n, he, hF⟩
  · rw [he] at h
    cases h
  rw [he] at h
  generalize hb : s.super.dataStart + n = b
  simp only [hb] at h
  split at h
  · cases h
  rename_i hsz
  obtain ⟨j, hj⟩ : ∃ j : Inode, j = { i with
      data := putLE (fill i.data 0 96 fun _ => 0) 0 8 b
      blocks := 8
      flags := i.flags &&& 0xFFFFFFFE } := ⟨_, rfl⟩
  generalize hs2 : (s.takeBit n).setBlk b (inlineBlock i) = s2
  rw [← inlineBlock] at h
  simp only [← hj, hs2] at h
  have hiw : flatfsInodeWrite s2 j = (.ok, s1) := by
    obtain ⟨h1, -, h3⟩ : (flatfsInodeWrite s2 j).1 = .ok ∧ j = i1 ∧ (flatfsInodeWrite s2 j).2 = s1 := by
      simpa using h
    exact Prod.ext h1 h3
  obtain rfl : j = i1 := by grind
  obtain ⟨hov, hsup, hlt⟩ := flatfsInodeWrite_over hiw
  have hjino : j.ino = i.ino := by rw [hj]
  have hjin : j.isInline = false := by
    rw [hj]
    show (i.flags &&& 0xFFFFFFFE &&& 1 != 0) = false
    rw [Nat.and_assoc]
    simp
  have hjcrc : j.hasCrc = i.hasCrc := by
    rw [hj]
    show (i.flags &&& 0xFFFFFFFE &&& 512 != 0) = (i.flags &&& 512 != 0)
    rw [Nat.and_assoc]
    rfl
  have hno : ∀ x, (s.over i).val x ≠ b := by rw [← hb]; exact hF.no
  have hbpos : b ≠ 0 := by rw [← hb]; exact hF.pos
  have hblt : b < 256 ^ 8 := by rw [← hb]; exact hF.lt
  have hroot : ∀ k, rootPtr (s.over i) i.ino k = 0 := by
    intro k
    unfold rootPtr FS.over FS.setInode
    simp [Inode.mapped, hin]
  -- the new block belongs to nobody yet, so writing it changes no slot
  have hval2 : (s2.over i).val = (s.over i).val := by
    rw [← hs2, FS.over_setBlk, FS.over_takeBit, val_setBlk, hF.val]
    intro a _ _
    rw [hF.val]
    exact hno a
  have hptr : ∀ k < 12, j.blkPtr k = if k = 0 then b else rootPtr (s2.over i) i.ino k := by
    intro k hk
    have hz : rootPtr (s2.over i) i.ino k = 0 := (congrFun hval2 (.ptr i.ino k)).trans (hroot k)
    rw [hz, hj]
    unfold Inode.blkPtr
    split
    · grind [leAt_putLE_self]
    · grind [leAt_putLE_of_disjoint, leAt_eq_zero, fill_of_mem]
  have hval : (s1.over j).val = update (s.over i).val (.ptr i.ino 0) b := by
    rw [hov, ← FS.setInode_over s2 i j hjino, ← hval2]
    refine val_fillPtr ?_ ?_ ?_ hptr (by decide) ?_ (fun h => absurd h (by decide))
    · rw [← hjino]; exact hlt
    · grind [Inode.mapped]
    · rw [hj]; simp [FS.over, FS.setInode]
    · exact (congrFun hval2 (.ptr i.ino 0)).trans (hroot 0)
  have hblk : (s1.over j).blk b = inlineBlock i := by
    rw [hov, ← hs2]
    exact FS.setBlk_blk_self ..
  have hl0 : ∀ l, lslot i.ino l = .ptr i.ino 0 ↔ l = 0 := fun l =>
    ⟨fun e => (lslot_inj (show lslot i.ino l = lslot i.ino 0 from e)).2, fun e => by rw [e]; rfl⟩
  have hvl : ∀ l, (s1.over j).val (lslot i.ino l) = if l = 0 then b else 0 := by
    intro l
    rw [hval, update_apply, val_lslot_inline hin]
    simp only [hl0]
  refine ⟨?_, by rw [hj], by omega, hjin, hjcrc, ?_, fun l => ?_, fun l => ?_⟩
  · refine wf_fill hW (k := n) (a := .ptr i.ino 0) hF.no ?_ ?_ ?_ (hval.trans (by rw [← hb]; rfl))
    · rw [hov, ← hs2]
      exact allocInv_over.2 (allocInv_setBlk ((allocInv_over (s := s.takeBit n) (i := i)).1 hF.wf.inv) _ _)
    · rw [hov, ← hs2]; rfl
    · intro x
      rw [hov, ← hs2]
      exact hF.alloc x
  · rw [hsup, ← hs2]; rfl
  · unfold FS.fileBlock
    grind
  · unfold LblkOk
    grind

/-! ## 7. Reading back -/

omit mac in
/-- The byte that belongs at position `p` after `d` was written at `off`. -/
def intended (s : FS) (i : Inode) (off : Nat) (d : Text) (p : Nat) : UInt8 :=
  if off ≤ p ∧ p < off + d.length then d.getD (p - off) 0
  else if p < i.size then fileByte s i p else 0

/-- **Read-after-write**: the new size covers the old contents and `d`, and reading the whole file
    returns `d` where it was written, the previous contents elsewhere and zeros in a gap. -/
def ReadsBack (s : FS) (i : Inode) (off : Nat) (d : Text) (i' : Inode) (s' : FS) : Prop :=
  i'.size = max i.size (off + d.length) ∧
  ∃ out, flatfsFilePread mac s' i' 0 i'.size = .ok out ∧ out.length = i'.size ∧
    ∀ p < i'.size, out.getD p 0 = intended s i off d p

omit mac in
/-- The block a write through blocks starts from: the logical block, or what the conversion of
    an inline file makes. -/
def baseBlock (s : FS) (i : Inode) (l : Nat) : Bytes :=
  if i.isInline then (if l = 0 then inlineBlock i else zeroBytes)
  else (s.over i).fileBlock i.ino l

/-- Position `p` lies in the seal of a block that the write seals. -/
def InSeal (i : Inode) (off : Nat) (d : Text) (p : Nat) : Prop :=
  i.hasCrc = true ∧ Touches off (off + d.length) (p / 4096) ∧ sealStart mac ≤ p % 4096

/-- **When a write through blocks is read back.** The new size is within the reach of the block
    map; what is stored in the gap is zero; and wherever a seal lies below the new size its bytes
    are the ones that belong there. The last two clauses are about inline files that were
    extended past their union. -/
structure SealsAgree (s : FS) (i : Inode) (off : Nat) (d : Text) : Prop where
  reach : max i.size (off + d.length) ≤ 4096 * 262666
  gap : ∀ p, i.size ≤ p → p < off → ¬ InSeal mac i off d p →
    baseBlock s i (p / 4096) (p % 4096) = 0
  seals : ∀ p < max i.size (off + d.length), InSeal mac i off d p →
    sealBlock mac (mergedBlock (baseBlock s i) off off (off + d.length) d (p / 4096)) (p % 4096) =
      intended s i off d p
  inlineSeal : i.isInline = true → ∀ p < i.size, 4092 ≤ p → p < off ∨ off + d.length ≤ p →
    ¬ InSeal mac i off d p → inlineBlock i p = i.data p
  inlinePasses : i.isInline = true → i.hasCrc = true → 4096 ≤ off →
    blockPasses mac (inlineBlock i) = true

/-- **When a write is read back.** -/
def WriteAgrees (s : FS) (i : Inode) (off : Nat) (d : Text) : Prop :=
  if i.isInline = true ∧ off + d.length ≤ 96 then ∀ p, i.size ≤ p → p < off → i.data p = 0
  else SealsAgree mac s i off d

/-- **The block-mapped file a write through blocks starts from**: the file itself, or what the
    conversion made of it. -/
structure StartsFrom (s : FS) (i i1 : Inode) (s1 : FS) : Prop where
  ino : i1.ino = i.ino
  magic : i1.inodeMagic = i.inodeMagic
  size : i1.size = i.size
  crc : i1.hasCrc = i.hasCrc
  inline : i1.isInline = false
  wf : Wf (s1.over i1)
  totalInodes : s1.super.totalInodes = s.super.totalInodes
  base : ∀ l, ∀ k < 4096, (s1.over i1).fileBlock i.ino l k = baseBlock s i l k
  passes : ∀ l, LblkOk mac (s1.over i1) i1 l ↔
    (i.isInline = true → i.hasCrc = true → l = 0 → blockPasses mac (inlineBlock i) = true)
  sizeLe : i.isInline = true → i.size ≤ 4096

theorem startsFrom_mapped (hok : FileOk mac s i) (hin : i.isInline = false) : StartsFrom mac s i i s := by
  have hin' : ¬ i.isInline = true := by simp [hin]
  refine ⟨rfl, rfl, rfl, rfl, hin, hok.wf, rfl, fun l k _ => ?_,
    fun l => ⟨fun _ h => absurd h hin', fun _ => hok.passes hin l⟩, fun h => absurd h hin'⟩
  unfold baseBlock
  rw [if_neg hin']

theorem startsFrom_converted {s1 : FS} (hin : i.isInline = true)
    (hc : Converted mac s i i1 s1) : StartsFrom mac s i i1 s1 := by
  refine ⟨by rw [hc.same], by rw [hc.same], by rw [hc.same], hc.crc, hc.inline, hc.wf,
    hc.totalInodes, fun l k _ => ?_, fun l => ?_, fun _ => hc.sizeLe⟩
  · rw [hc.block]
    unfold baseBlock
    rw [if_pos hin]
  grind [hc.passes]

theorem flatfsFilePwrite_cases (hok : FileOk mac s i) (hd : d ≠ []) (hoff : off < 18446744073709551616)
    (hw : flatfsFilePwrite mac s i off d = some (.ok n, i', s')) :
    (i.isInline = true ∧ off + d.length ≤ 96) ∧ s' = s ∧ flatfsInlineWrite i off d = some (.ok n, i') ∨
    ¬ (i.isInline = true ∧ off + d.length ≤ 96) ∧
      ∃ i1 s1, StartsFrom mac s i i1 s1 ∧ BlocksWrote mac s1 i1 off d i' s' := by
  have hblocks : ∀ {i1 : Inode} {s1 : FS}, StartsFrom mac s i i1 s1 →
      some (pwriteBlocks mac s1 i1 off d) = some (.ok n, i', s') →
      BlocksWrote mac s1 i1 off d i' s' := by
    intro i1 s1 hst h
    have hm : i1.mapped = true := by simp [Inode.mapped, hst.magic, hok.live, hst.inline]
    exact pwriteBlocks_wrote mac hm (by rw [hst.ino, hst.totalInodes]; exact hok.inoLt) hst.wf hd
      hoff (Option.some.inj h)
  unfold flatfsFilePwrite at hw
  by_cases hin : i.isInline = true
  · rw [if_pos hin] at hw
    by_cases hfit : flatfsInlineFits (u64 (off + d.length)) = true
    · rw [if_pos hfit] at hw
      obtain ⟨⟨res, j⟩, hj, he⟩ := Option.map_eq_some_iff.1 hw
      obtain ⟨rfl, rfl, rfl⟩ : res = .ok n ∧ j = i' ∧ s = s' := by simpa using he
      refine .inl ⟨⟨hin, ?_⟩, rfl, hj⟩
      -- a sum that fits only because it wrapped is refused
      by_contra hgt
      unfold flatfsInlineWrite at hj
      have hle : u64 (off + d.length) ≤ inlineMax := by simpa [flatfsInlineFits] using hfit
      simp only [if_neg (Nat.not_lt.2 hle)] at hj
      rw [if_pos (show off + d.length > inlineMax by simp [inlineMax]; omega)] at hj
      cases hj
    · rw [if_neg hfit] at hw
      have h96 : ¬ off + d.length ≤ 96 := by
        intro hle
        rw [u64_of_lt (by omega)] at hfit
        exact hfit (decide_eq_true hle)
      grind [startsFrom_converted, flatfsInlineToBlock_converted, hok.live, hok.wf]
  · rw [if_neg hin] at hw
    grind [startsFrom_mapped]

theorem wroteBlock_inSeal {i : Inode} {p : Nat} (h : InSeal mac i off d p) :
    wroteBlock mac i cur off off (off + d.length) d (p / 4096) (p % 4096) =
      sealBlock mac (mergedBlock cur off off (off + d.length) d (p / 4096)) (p % 4096) := by
  unfold wroteBlock storedAs
  rw [if_pos h.2.1, if_pos h.1]

theorem wroteBlock_not_inSeal {i : Inode} {p : Nat} (h : ¬ InSeal mac i off d p) :
    wroteBlock mac i cur off off (off + d.length) d (p / 4096) (p % 4096) =
      if off ≤ p ∧ p < off + d.length then d.getD (p - off) 0 else cur (p / 4096) (p % 4096) := by
  have hp : 4096 * (p / 4096) + p % 4096 = p := Nat.div_add_mod p 4096
  unfold wroteBlock
  by_cases ht : Touches off (off + d.length) (p / 4096)
  · have hst : storedAs mac i (mergedBlock cur off off (off + d.length) d (p / 4096)) (p % 4096) =
        mergedBlock cur off off (off + d.length) d (p / 4096) (p % 4096) := by
      unfold storedAs
      split
      · rename_i hc
        refine sealBlock_of_lt mac ?_
        by_contra hlt
        exact h ⟨hc, ht, by omega⟩
      · rfl
    rw [if_pos ht, hst]
    unfold mergedBlock
    rw [hp]
  · rw [if_neg ht, if_neg]
    intro hin
    apply ht
    unfold Touches
    omega

theorem wroteBlock_congr {i j : Inode} (hc : j.hasCrc = i.hasCrc) {cur' : Nat → Bytes}
    (h : ∀ l, ∀ k < 4096, cur l k = cur' l k) (off a e : Nat) (d : Text) (l : Nat) :
    ∀ k < 4096, wroteBlock mac j cur off a e d l k = wroteBlock mac i cur' off a e d l k := by
  intro k hk
  have hst : ∀ c, storedAs mac j c = storedAs mac i c := fun c => by unfold storedAs; rw [hc]
  unfold wroteBlock
  split
  · rw [hst]
    grind [storedAs_congr, mergedBlock]
  · exact h l k hk

/-- Outside the seals, a byte stored by a write through blocks is the one that belongs there,
    up to what was stored in a gap and what the conversion sealed away. -/
theorem wroteBlock_eq_intended_iff {p : Nat}
    (hinl : i.isInline = true → i.size ≤ 4096) (hp : p < max i.size (off + d.length))
    (hns : ¬ InSeal mac i off d p) :
    wroteBlock mac i (baseBlock s i) off off (off + d.length) d (p / 4096) (p % 4096) = intended s i off d p ↔
      (i.size ≤ p → p < off → baseBlock s i (p / 4096) (p % 4096) = 0) ∧
      (i.isInline = true → p < i.size → 4092 ≤ p → p < off ∨ off + d.length ≤ p →
        inlineBlock i p = i.data p) := by
  rw [wroteBlock_not_inSeal mac hns]
  unfold intended
  by_cases hr : off ≤ p ∧ p < off + d.length
  · grind
  rw [if_neg hr, if_neg hr]
  by_cases hps : p < i.size
  swap
  · grind
  rw [if_pos hps]
  by_cases hi : i.isInline = true
  swap
  · have hb : baseBlock s i (p / 4096) (p % 4096) = fileByte s i p := by
      unfold baseBlock fileByte
      rw [if_neg hi, if_neg hi]
      rfl
    grind
  have h4096 := hinl hi
  have hb : baseBlock s i (p / 4096) (p % 4096) = inlineBlock i p := by
    unfold baseBlock
    rw [if_pos hi, if_pos (by omega), Nat.mod_eq_of_lt (by omega)]
  have hf : fileByte s i p = i.data p := by unfold fileByte; rw [if_pos hi]
  rw [hb, hf]
  by_cases h92 : 4092 ≤ p
  · exact ⟨fun h => ⟨fun h' => absurd hps (by omega), fun _ _ _ _ => h⟩,
      fun h => h.2 hi hps h92 (by omega)⟩
  · refine ⟨fun _ => ⟨fun h' => absurd hps (by omega), fun _ _ h => absurd h h92⟩, fun _ => ?_⟩
    unfold inlineBlock flatfsBlockCrcSet
    rw [if_neg (by decide)]
    exact (fill_of_not_mem (.inl (by omega))).trans (fill_of_mem (by omega) (by omega))

/-- **Reading back after a write through blocks**, given the block-mapped file it started from. -/
theorem readsBack_iff_sealsAgree {s1 : FS} (hok : FileOk mac s i) (hd : d ≠ []) (hst : StartsFrom mac s i i1 s1)
    (hw : BlocksWrote mac s1 i1 off d i' s') : ReadsBack mac s i off d i' s' ↔ SealsAgree mac s i off d := by
  obtain ⟨hino, hmagic, hsz, hcrc, hin, -, htot, hbase, hpass, hinl⟩ := hst
  have hsize := hok.sizeLt
  have hlen : 0 < d.length := length_pos_iff.2 hd
  have hN : i'.size = max i.size (off + d.length) := by rw [hw.size, hsz]
  have hle := hw.le
  have hino' : i'.ino = i.ino := by rw [hw.same]; exact hino
  have hin' : i'.isInline = false := by rw [hw.same]; exact hin
  have hread := flatfsFilePread_eq_ok mac (s := s') (i := i')
    (by rw [hino', hw.totalInodes, htot]; exact hok.inoLt) (by rw [hw.same]; exact hmagic ▸ hok.live)
    (by rw [hN]; omega)
  -- the byte stored at a position, in terms of the state before the write
  have hbyte : ∀ p, fileByte s' i' p =
      wroteBlock mac i (baseBlock s i) off off (off + d.length) d (p / 4096) (p % 4096) := by
    intro p
    have hmod : p % 4096 < 4096 := Nat.mod_lt _ (by decide)
    unfold fileByte mappedByte
    rw [hin', hino', if_neg (by decide), ← hino, hw.block _ _ hmod, hino]
    exact wroteBlock_congr mac hcrc hbase off off _ d _ _ hmod
  have hpasses : (∀ l, 4096 * l < i'.size → l < 262666 ∧ LblkOk mac (s'.over i') i' l) ↔
      max i.size (off + d.length) ≤ 4096 * 262666 ∧
      (i.isInline = true → i.hasCrc = true → 4096 ≤ off → blockPasses mac (inlineBlock i) = true) := by
    rw [hN]
    constructor
    · intro h
      refine ⟨?_, fun h1 h2 h3 => ?_⟩
      · by_contra hgt
        exact absurd (h 262666 (by omega)).1 (by decide)
      · rcases (hw.passes 0).1 (h 0 (by omega)).2 with ht | ht
        · unfold Touches at ht; omega
        · exact (hpass 0).1 ht h1 h2 rfl
    · rintro ⟨h, h'⟩ l hl
      refine ⟨by omega, (hw.passes l).2 ?_⟩
      by_cases ht : Touches off (off + d.length) l
      · exact .inl ht
      grind [Touches]
  have hrb : ReadsBack mac s i off d i' s' ↔
      (∀ l, 4096 * l < i'.size → l < 262666 ∧ LblkOk mac (s'.over i') i' l) ∧
      ∀ p < i'.size, fileByte s' i' p = intended s i off d p := by
    unfold ReadsBack
    constructor
    · rintro ⟨-, out, ho, -, hv⟩
      obtain ⟨hp, rfl⟩ := (hread _).1 ho
      refine ⟨hp hin', fun p hp' => ?_⟩
      rw [← hv p hp', getD_bytesAt hp', Nat.zero_add]
    · rintro ⟨hp, hv⟩
      refine ⟨hN, _, (hread _).2 ⟨fun _ => hp, rfl⟩, length_bytesAt .., fun p hp' => ?_⟩
      rw [getD_bytesAt hp', Nat.zero_add]
      exact hv p hp'
  rw [hrb, hpasses, hN]
  simp only [hbyte]
  constructor
  · rintro ⟨⟨hreach, hp0⟩, hv⟩
    refine ⟨hreach, fun p h1 h2 h3 => ?_, fun p h1 h2 => ?_, fun hi p h1 h2 h3 h4 => ?_, hp0⟩
    · exact ((wroteBlock_eq_intended_iff mac hinl (by omega) h3).1 (hv p (by omega))).1 h1 h2
    · rw [← hv p h1, wroteBlock_inSeal mac h2]
    · exact ((wroteBlock_eq_intended_iff mac hinl (by omega) h4).1 (hv p (by omega))).2 hi h1 h2 h3
  · intro h
    refine ⟨⟨h.reach, h.inlinePasses⟩, fun p hp => ?_⟩
    by_cases hs : InSeal mac i off d p
    · rw [wroteBlock_inSeal mac hs]
      exact h.seals p hp hs
    grind [wroteBlock_eq_intended_iff, h.gap, h.inlineSeal]

omit mac in
theorem flatfsInlineWrite_ok {i : Inode}
    (hfit : off + d.length ≤ 96) (h : flatfsInlineWrite i off d = some (.ok n, i')) : i' = { i with
      data := fill i.data off d.length fun j => d.getD j 0
      size := max i.size (off + d.length)
      flags := i'.flags } ∧ i'.isInline = true := by
  unfold flatfsInlineWrite at h
  simp only [u64_of_lt (show off + d.length < 18446744073709551616 by omega)] at h
  rw [if_neg (by simp [inlineMax]; omega), if_neg (by simp [inlineMax]; omega)] at h
  obtain ⟨-, rfl⟩ := Prod.mk.inj (Option.some.inj h)
  have hmax : (if off + d.length > i.size then off + d.length else i.size) =
      max i.size (off + d.length) := by split <;> omega
  rw [hmax]
  refine ⟨rfl, ?_⟩
  show ((i.flags ||| 1) &&& 1 != 0) = true
  grind

theorem readsBack_inline (hok : FileOk mac s i) (hd : d ≠ [])
    (hin : i.isInline = true) (hfit : off + d.length ≤ 96) (h : flatfsInlineWrite i off d = some (.ok n, i')) :
    ReadsBack mac s i off d i' s ↔ ∀ p, i.size ≤ p → p < off → i.data p = 0 := by
  have hlen : 0 < d.length := length_pos_iff.2 hd
  have hsize := hok.sizeLt
  obtain ⟨hi', hin'⟩ := flatfsInlineWrite_ok hfit h
  have hN : i'.size = max i.size (off + d.length) := by rw [hi']
  have hread := flatfsFilePread_eq_ok mac (s := s) (i := i') (by rw [hi']; exact hok.inoLt)
    (by rw [hi']; exact hok.live) (by rw [hN]; omega)
  have hbyte : ∀ p, fileByte s i' p =
      if off ≤ p ∧ p < off + d.length then d.getD (p - off) 0 else i.data p := by
    intro p
    unfold fileByte
    rw [if_pos hin', hi']
    rfl
  have hint : ∀ p < max i.size (off + d.length), (fileByte s i' p = intended s i off d p ↔
      (i.size ≤ p → p < off → i.data p = 0)) := by
    intro p hp
    rw [hbyte]
    unfold intended fileByte
    by_cases hr : off ≤ p ∧ p < off + d.length
    · grind
    · grind
  unfold ReadsBack
  constructor
  · rintro ⟨-, out, ho, -, hv⟩ p h1 h2
    obtain ⟨-, rfl⟩ := (hread _).1 ho
    have hp : p < i'.size := by rw [hN]; omega
    refine (hint p (by omega)).1 ?_ h1 h2
    rw [← hv p hp, getD_bytesAt hp, Nat.zero_add]
  · intro h
    refine ⟨hN, _, (hread _).2 ⟨fun h => ?_, rfl⟩, length_bytesAt .., fun p hp => ?_⟩
    · rw [hin'] at h
      cases h
    · rw [getD_bytesAt hp, Nat.zero_add]
      grind

/-- **Read-after-write, exactly**: a write that succeeds is read back if and only if the seals and
    the gap leave room for it (`WriteAgrees`). -/
theorem flatfsFilePwrite_reads_back_iff (s : FS) (i : Inode) (off : Nat) (d : Text)
    (i' : Inode) (s' : FS) (hok : FileOk mac s i) (hd : d ≠ []) (hoff : off < 18446744073709551616)
    (hw : flatfsFilePwrite mac s i off d = some (.ok d.length, i', s')) :
    ReadsBack mac s i off d i' s' ↔ WriteAgrees mac s i off d := by
  unfold WriteAgrees
  rcases flatfsFilePwrite_cases mac hok hd hoff hw with ⟨hin, rfl, h⟩ | ⟨hin, i1, s1, hst, h⟩
  · rw [if_pos hin]
    exact readsBack_inline mac hok hd hin.1 hin.2 h
  · rw [if_neg hin]
    exact readsBack_iff_sealsAgree mac hok hd hst h

/-! ## 8. The files this is about -/

omit mac in
/-- The inode `flatfs_open` creates: inline and checksummed. -/
def flatfsOpenInode (ino ts : Nat) : Inode :=
  { flatfsInodeInit ino 0x81A4 0 0 with
    flags := flInline ||| flHascrc, crtimeNs := ts, atimeNs := ts, mtimeNs := ts, ctimeNs := ts }

omit mac in
/-- The inode `do_create` creates: inline, not checksummed. -/
def doCreateInode (ino mode tid : Nat) : Inode :=
  { flatfsInodeInit ino (0x8000 ||| (mode &&& 0x1FF)) 0 0 with flags := flInline, tykidLast := tid }

theorem fileOk_of_inline (hW : Wf s) (hin : i.isInline = true) (hino : i.ino < s.super.totalInodes)
    (hlive : i.inodeMagic ≠ 0) (hsize : i.size = 0) (hh : i.dirHtreeBlk = 0) : FileOk mac s i := by
  have hm : i.mapped = false := by simp [Inode.mapped, hin]
  refine ⟨hino, hlive, by omega, wf_over_inline hW hm hh, fun h => ?_⟩
  rw [hin] at h
  cases h

theorem fileOk_created (hW : Wf s) {ino : Nat} (hino : ino < s.super.totalInodes) (ts mode tid : Nat) :
    FileOk mac s (flatfsOpenInode ino ts) ∧ FileOk mac s (doCreateInode ino mode tid) := by
  have hmagic : inodeMagicValue ≠ 0 := by decide
  have h1 : (flatfsOpenInode ino ts).isInline = true := by
    simp [flatfsOpenInode, Inode.isInline, flInline, flHascrc]
  have h2 : (doCreateInode ino mode tid).isInline = true := by
    simp [doCreateInode, Inode.isInline, flInline]
  exact ⟨fileOk_of_inline mac hW h1 hino hmagic rfl rfl, fileOk_of_inline mac hW h2 hino hmagic rfl rfl⟩

end Contents

/-! ## 9. Two files -/

theorem flatfsFilePwrite_reads_back_two : ∃ i' s',
    flatfsFilePwrite none (mounted1100 fun _ => {}) (doCreateInode 1 0o644 0) 0 [107, 111] =
      some (.ok 2, i', s') ∧
    ReadsBack none (mounted1100 fun _ => {}) (doCreateInode 1 0o644 0) 0 [107, 111] i' s' := by
  refine ⟨_, _, rfl, (flatfsFilePwrite_reads_back_iff none _ _ 0 [107, 111] _ _
    (fileOk_created none wf_1100 (by decide) 0 _ 0).2 (by decide) (by decide) rfl).2 ?_⟩
  unfold WriteAgrees
  rw [if_pos (by decide)]
  exact fun p _ h => absurd h (by omega)

theorem sealBlock_zeros (hb : ∀ j < 4092, b j = 0) : sealBlock none b 4092 = 0x89 := by
  have hbytes : bytesAt b 0 4092 = List.replicate 4092 0 := by
    refine eq_replicate_iff.2 ⟨length_bytesAt .., fun x hx => ?_⟩
    obtain ⟨k, hk, rfl⟩ := mem_map.1 hx
    exact hb _ (by have := mem_range.1 hk; omega)
  show fill b 4092 4 (leByte (flatfsCrc32 (bytesAt b 0 4092))) 4092 = _
  rw [fill_of_mem (by decide) (by decide), hbytes, flatfsCrc32_eq]
  decide +kernel

/-- **A block-sized write loses its last bytes**: a new file of `flatfs_open` does not return the
    4096 zero bytes that were written to it. -/
theorem flatfsFilePwrite_block_lost : ∃ i' s', FileOk none (mounted1100 fun _ => {}) (flatfsOpenInode 1 0) ∧
    flatfsFilePwrite none (mounted1100 fun _ => {}) (flatfsOpenInode 1 0) 0 (List.replicate 4096 0) =
      some (.ok (List.replicate 4096 (0 : UInt8)).length, i', s') ∧
    ¬ ReadsBack none (mounted1100 fun _ => {}) (flatfsOpenInode 1 0) 0 (List.replicate 4096 0) i' s' := by
  have hok := (fileOk_created none wf_1100 (show 1 < _ by decide) 0 0 0).1
  have ha : (flatfsFilePwrite none (mounted1100 fun _ => {}) (flatfsOpenInode 1 0) 0 (List.replicate 4096 0)).map
      (fun r => r.1) = some (.ok 4096) := by decide +kernel
  generalize hd : List.replicate 4096 (0 : UInt8) = d
  have hlen : d.length = 4096 := by rw [← hd, List.length_replicate]
  have hz : ∀ j, d.getD j 0 = 0 := fun j => by grind
  rw [hd] at ha
  obtain ⟨⟨e, i', s'⟩, hpw, rfl⟩ := Option.map_eq_some_iff.1 ha
  rw [← hlen] at hpw
  have hne : d ≠ [] := fun e => by rw [e] at hlen; cases hlen
  refine ⟨i', s', hok, hpw, fun hrb => ?_⟩
  rcases flatfsFilePwrite_cases none hok hne (by decide) hpw with ⟨h, -⟩ | ⟨-, i2, s2, hst, hbw⟩
  · rw [hlen] at h
    exact absurd h.2 (by decide)
  have hat := ((readsBack_iff_sealsAgree none hok hne hst hbw).1 hrb).seals 4092
    (by rw [hlen]; decide) ⟨by decide, by rw [hlen]; unfold Touches; decide, by decide⟩
  have hint : intended (mounted1100 fun _ => {}) (flatfsOpenInode 1 0) 0 d 4092 = 0 := by
    unfold intended
    rw [hlen, if_pos (by decide), hz]
  rw [hint, show (4092 : Nat) % 4096 = 4092 from rfl, sealBlock_zeros] at hat
  · exact absurd hat (by decide)
  · intro j hj
    unfold mergedBlock
    rw [hlen, if_pos (by omega), hz]

end Kobalt.Flatfs
