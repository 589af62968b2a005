/-
  Subject: RECOVERY AND MOUNT BYTE BY BYTE (`flatfs_journal_recovery.c`, `flatfs_mount`), and a
  recovery that is interrupted.

  Recovery is a list of block writes: the superblock with the replay flag and its copy, the blocks of the
  log, the journal superblock, and the clean superblock with its copy. A machine that stops leaves the
  image after the first `k` of them. The flag is on the disk before the replay starts, and a mount that
  finds it gives up.
-/
import Kobalt.Flatfs.Mount
import Kobalt.Flatfs.ReplayTrace

namespace Kobalt.Flatfs.Disk

open Journal List

/-! ## 1. The code -/

def sbState (m : Bytes) : Nat := leAt m 172 4

def setState (m : Bytes) (st : Nat) : Bytes := putLE m 172 4 st

/-- `g_j` after a boot. -/
def bootJ : JState := ⟨0, 0, false, [], []⟩

/-- `js->head = js->tail`, with the checksum. -/
def jsEmpty (m : Bytes) : Bytes := jsSeal (putLE m (jsuper m + 16) 8 (jsTail m (jsuper m))) (jsuper m)

def flatfsJournalCheckpoint (m : Bytes) : Bytes := jsCopy (jsuper m) (jsEmpty m)

section Keyed

variable (mac : Mac) (fuel : Nat) (m : Bytes)

/-- The live superblock gets a state and is sealed. -/
def sealState (f : Nat → Nat) (m : Bytes) : Bytes := superSeal mac (setState m (f (sbState m)))

def markReplay (st : Nat) : Nat := st ||| stateReplay

def markRecovered (st : Nat) : Nat := clear32 st (stateDirty ||| stateReplay) ||| stateClean

/-- `flatfs_journal_recover`; no answer where the replay has none. -/
def flatfsJournalRecover (s : JSys) : Option (FlatfsErr × JSys) :=
  if sbState s.mem &&& stateReplay ≠ 0 then some (.badstate, s) else
  let m := superCopy (sealState mac markReplay s.mem)
  match Journal.flatfsJournalReplay fuel ⟨m, s.j⟩ with
  | none => none
  | some (.ok, s) =>
    some (.ok, { s with mem := superCopy (sealState mac markRecovered (flatfsJournalCheckpoint s.mem)) })
  | some (e, s) =>
    let m := putLE s.mem 176 4 (u32 (leAt s.mem 176 4 + 1))
    some (e, { s with mem := superCopy (sealState mac (· ||| stateError) m) })

def flatfsSuperMarkDirty : Bytes :=
  let m := putLE m 180 4 (u32 (leAt m 180 4 + 1))
  superCopy (sealState mac (fun st => clear32 st stateClean ||| stateDirty) m)

/-- One group of `flatfs_alloc_init`: a block without the magic number becomes an empty group. -/
def groupInit (gi : Nat) : Bytes :=
  let a := blkPtr (leAt m 104 8 + gi)
  if leAt m a 4 ≠ freelistMagic then
    let m := putLE (putLE (fill m a blockSize zeroBytes) a 4 freelistMagic) (a + 4) 4 gi
    let m := putLE (putLE m (a + 8) 8 (leAt m 120 8 + gi * groupBlocks)) (a + 16) 4 groupBlocks
    jsSeal m a
  else m

/-- `flatfs_alloc_init`; the 32-bit counter of its loop does not reach 2^32 groups. -/
def flatfsAllocInit : Option Bytes :=
  if leAt m 112 8 < 2 ^ 32 then some ((List.range (leAt m 112 8)).foldl groupInit m) else none

/-- `flatfs_journal_init`, as far as the image goes. -/
def flatfsJournalInit : Bytes :=
  let js := jsuper m
  if leAt m js 4 ≠ Journal.journalMagic then
    let start := journalStart m
    let blocks := leAt m 72 8
    let m := putLE (putLE (putLE (fill m js blockSize zeroBytes) js 4 Journal.journalMagic) (js + 4) 4 1) (js + 8) 8 1
    let m := putLE (putLE m (js + 32) 8 (start + 2)) (js + 40) 8 (sub64 blocks 2)
    jsCopy js (jsSeal (putLE m (js + 60) 4 blockSize) js)
  else m

def btreeMagic : Nat := 0x46425452

/-- `flatfs_btree_init`: a root without the magic number becomes an empty leaf. -/
def flatfsBtreeInit : FlatfsErr × Bytes :=
  let root := leAt m 96 8
  if root > 0 ∧ root < leAt m 24 8 then
    let a := blkPtr root
    if leAt m a 4 ≠ btreeMagic then
      let m := putLE (putLE (fill m a blockSize zeroBytes) a 4 btreeMagic) (a + 4) 2 1
      let m := jsSeal (putLE m (a + 16) 8 root) a
      (.ok, jsSeal (flatfsTykidMacSet mac m a blockSize) a)
    else (.ok, m)
  else (.inval, m)

/-- What `flatfs_mount` does behind the recovery. -/
def mountRest : Option (FlatfsErr × Bytes) :=
  (flatfsAllocInit (flatfsSuperMarkDirty mac m)).map fun m => flatfsBtreeInit mac (flatfsJournalInit m)

/-- `flatfs_mount` of an image after a boot: the status and the image. -/
def flatfsMount (cap : Nat) (m : Bytes) : Option (FlatfsErr × Bytes) :=
  if cap < blockSize * 32 then some (.inval, m) else
  match flatfsSuperRead mac m cap with
  | (.ok, m) =>
    match (if sbState m &&& stateDirty ≠ 0 then flatfsJournalRecover mac fuel ⟨m, bootJ⟩
        else some (.ok, ⟨m, bootJ⟩)) with
    | none => none
    | some (.ok, s) => mountRest mac s.mem
    | some (e, s) => some (e, s.mem)
  | (e, m) => some (e, m)

/-! ## 2. Recovery as a list of writes -/

/-- The write of an access. -/
def Access.store : Access → Option (Bytes → Bytes)
  | .write blk data => some fun m => setBlock m blk data
  | _ => none

def stores (tr : List Access) : List (Bytes → Bytes) := tr.filterMap Access.store

/-- The image that the replay of a recovery starts from: both superblocks have the flag. -/
def flagged : Bytes := superCopy (sealState mac markReplay m)

/-- The accesses of that replay. -/
def replayTrace : List Access := (tracedReplay fuel ⟨flagged mac m, bootJ⟩).1

/-- **The writes of `flatfs_journal_recover`, in order.** -/
def recoverWrites : List (Bytes → Bytes) :=
  [sealState mac markReplay, superCopy] ++ stores (replayTrace mac fuel m) ++
    [jsEmpty, fun m => jsCopy (jsuper m) m, sealState mac markRecovered, superCopy]

end Keyed

section Stores

variable {base cnt : Nat}

theorem stores_append (tr tr' : List Access) : stores (tr ++ tr') = stores tr ++ stores tr' := filterMap_append ..

@[simp] theorem stores_nil : stores [] = [] := rfl
@[simp] theorem stores_exam (tr : List Access) : stores (.exam :: tr) = stores tr := rfl
@[simp] theorem stores_modBy (d : Nat) (tr : List Access) : stores (.modBy d :: tr) = stores tr := rfl
@[simp] theorem stores_read (blk : Nat) (tr : List Access) : stores (.read blk :: tr) = stores tr := rfl
@[simp] theorem stores_write (blk : Nat) (data : Bytes) (tr : List Access) :
    stores (.write blk data :: tr) = (fun m => setBlock m blk data) :: stores tr := rfl

@[simp] theorem runWrites_nil (m : Bytes) : runWrites [] m = m := rfl
@[simp] theorem runWrites_cons (w : Bytes → Bytes) (ws : List (Bytes → Bytes)) (m : Bytes) :
    runWrites (w :: ws) m = runWrites ws (w m) := rfl

theorem stores_tag (rev : List Nat) (blk a i dpos : Nat) (m : Bytes) :
    runWrites (stores (tagAccesses base cnt rev blk a i dpos m)) m = replayTag base cnt rev a i dpos m := by
  have hreads : stores ([Access.modBy cnt, .read (blk + (24 + 16 * i) / blockSize)] ++
      if leAt m (tagAt a i) 8 ∈ rev then []
      else [.read (logNo base cnt dpos), .read (blk + (36 + 16 * i) / blockSize)]) = [] := by
    by_cases hr : leAt m (tagAt a i) 8 ∈ rev
    · rw [if_pos hr]
      rfl
    · rw [if_neg hr]
      rfl
  unfold tagAccesses replayTag
  rw [stores_append, hreads, nil_append]
  by_cases hh : TagHit base cnt rev a i dpos m
  · rw [if_pos hh, if_pos hh, stores_write, stores_nil, runWrites_cons, runWrites_nil]
  · rw [if_neg hh, if_neg hh, stores_nil, runWrites_nil]

theorem stores_tags (rev : List Nat) (blk a : Nat) : ∀ (k i dpos : Nat) (m : Bytes),
    runWrites (stores (tagsAccesses base cnt rev blk a k i dpos m)) m = replayTags rev base cnt a k i dpos m := by
  intro k
  induction k with
  | zero => exact fun _ _ _ => rfl
  | succ k ih =>
    intro i dpos m
    rw [tagsAccesses, stores_append, runWrites_append, stores_tag, ih, replayTags_succ]

theorem stores_record (pos : Nat) (m : Bytes) (rev : List Nat) : runWrites (stores (recordAccesses base cnt pos m rev)) m =
    match recordStep base cnt pos m rev with
    | none => m
    | some x => x.2.1 := by
  unfold recordAccesses
  rw [stores_append, stores_exam, stores_modBy, stores_read, stores_nil, nil_append]
  by_cases hd : IsDescriptor base cnt pos m
  · rw [if_pos hd, stores_tags, recordStep, if_neg (not_not.2 hd.1), if_pos hd.2]
  · have hstep : ∀ x, recordStep base cnt pos m rev = some x → x.2.1 = m := by
      intro x hx
      unfold recordStep at hx
      dsimp only at hx
      split_ifs at hx with h1 h2 h3 h4
      · exact absurd ⟨not_not.1 h1, h2⟩ hd
      · obtain rfl := Option.some.inj hx
        rfl
      · obtain rfl := Option.some.inj hx
        rfl
    rw [if_neg hd, stores_nil, runWrites_nil]
    grind

theorem stores_loop (limit : Nat) : ∀ (fuel pos : Nat) (m : Bytes) (rev : List Nat) {r : Nat × Bytes × List Nat},
    (tracedLoop base cnt limit fuel pos m rev).2 = some r →
      runWrites (stores (tracedLoop base cnt limit fuel pos m rev).1) m = r.2.1 := by
  intro fuel
  induction fuel with
  | zero => exact fun _ _ _ _ h => nomatch h
  | succ fuel ih =>
    intro pos m rev r h
    have hrec : runWrites (stores (recordAccesses base cnt pos m rev)) m = _ := stores_record pos m rev
    rw [tracedLoop] at h ⊢
    split_ifs at h ⊢ with hpos
    · obtain rfl := Option.some.inj h
      rfl
    grind [stores_append, runWrites_append]

theorem stores_replay {fuel : Nat} {s : JSys} {r : FlatfsErr × JSys} (h : (tracedReplay fuel s).2 = some r) :
    runWrites (stores (tracedReplay fuel s).1) s.mem = r.2.mem := by
  unfold tracedReplay at h ⊢
  dsimp only at h ⊢
  split_ifs at h ⊢ with hm
  · obtain rfl := Option.some.inj h
    rfl
  · generalize ht : tracedLoop (jsLogStart s.mem (jsuper s.mem)) (jsLogCount s.mem (jsuper s.mem))
      (jsTail s.mem (jsuper s.mem)) fuel (jsHead s.mem (jsuper s.mem)) s.mem s.j.revoke = t
    rw [ht] at h
    cases hr : t.2 with
    | none =>
      rw [hr] at h
      cases h
    | some x =>
      rw [hr] at h
      obtain rfl := Option.some.inj h
      have hloop : runWrites (stores t.1) s.mem = x.2.1 := by
        rw [← ht] at hr ⊢
        exact stores_loop _ _ _ _ _ hr
      dsimp only
      rw [cons_append, stores_read, stores_append, runWrites_append, hloop, stores_write, stores_nil,
        runWrites_cons, runWrites_nil]
      -- the journal superblock is the only block that the last write changes
      have honly : OnlyIn (jsuper s.mem) blockSize x.2.1 (jsSeal (putLE x.2.1 (jsuper s.mem + 16) 8 x.1) (jsuper s.mem)) :=
        ((onlyIn_fill x.2.1 (jsuper s.mem + 16) 8 _).mono (by omega) (by simp only [blockSize]; omega)).trans
          ((jsSeal_onlyIn ..).mono (by omega) (by simp only [blockSize]; omega))
      funext y
      by_cases hy : jsuper s.mem ≤ y ∧ y < jsuper s.mem + blockSize
      · rw [setBlock, ← jsuper, fill_of_mem hy.1 hy.2, Nat.add_sub_cancel' hy.1]
      · rw [setBlock, ← jsuper, fill_of_not_mem (by omega), honly.same y (by omega)]

end Stores

/-! ## 3. The parts of a recovery -/

section Parts

variable {mac : Mac} {fuel : Nat} {m m' : Bytes}

theorem and_or_ne_zero {a b c : Nat} (h : a &&& b ≠ 0) : (a ||| c) &&& b ≠ 0 := by grind

theorem markReplay_replay (st : Nat) : markReplay st &&& stateReplay ≠ 0 := by
  unfold markReplay
  rw [Nat.or_comm]
  exact and_or_ne_zero (by decide)

theorem markRecovered_dirty (st : Nat) : markRecovered st &&& stateDirty = 0 := by
  unfold markRecovered clear32
  rw [Nat.and_or_distrib_right, Nat.and_assoc]
  have : (0xFFFFFFFF ^^^ (stateDirty ||| stateReplay)) &&& stateDirty = 0 := by decide
  rw [this, Nat.and_zero]
  decide

theorem markReplay_lt {st : Nat} (h : st < 2 ^ 32) : markReplay st < 2 ^ 32 := Nat.or_lt_two_pow h (by decide)

theorem markRecovered_lt (st : Nat) : markRecovered st < 2 ^ 32 :=
  Nat.or_lt_two_pow (Nat.and_lt_two_pow _ (by decide)) (by decide)

theorem sbState_sealState {f : Nat → Nat} (hf : f (sbState m) < 2 ^ 32) : sbState (sealState mac f m) = f (sbState m) := by
  unfold sealState sbState
  rw [(superSeal_onlyIn _).leAt (by omega)]
  exact leAt_putLE_self hf

theorem sealState_same (f : Nat → Nat) {x : Nat} (h : x < 172 ∨ 176 ≤ x ∧ x < 4084 ∨ 4096 ≤ x) :
    sealState mac f m x = m x := by
  unfold sealState setState
  rw [(superSeal_onlyIn _).same x (by omega), putLE, fill_of_not_mem (by omega)]

theorem sealState_ok (f : Nat → Nat) (h : HeaderOk m 0) : SuperOk mac (sealState mac f m) 0 :=
  superSeal_ok (h.congr fun x _ hx => by rw [setState, putLE, fill_of_not_mem (by omega)])

theorem journalStart_sealState (f : Nat → Nat) : journalStart (sealState mac f m) = journalStart m :=
  leAt_congr fun x h1 h2 => sealState_same f (by omega)

/-- **A write that leaves block 0 as it is**, where the journal starts at the given block. -/
def LeavesSuper (start : Nat) (w : Bytes → Bytes) : Prop :=
  ∀ m, journalStart m = start → ∀ x < blockSize, w m x = m x

theorem runWrites_leaves {start : Nat} : ∀ (ws : List (Bytes → Bytes)) (m : Bytes), (∀ w ∈ ws, LeavesSuper start w) →
    journalStart m = start → ∀ x < blockSize, runWrites ws m x = m x := by
  intro ws
  induction ws with
  | nil => exact fun _ _ _ _ _ => rfl
  | cons w ws ih =>
    intro m hw hs x hx
    have hw0 := hw w mem_cons_self
    have hs' : journalStart (w m) = start := by
      rw [← hs]
      exact leAt_congr fun y _ h2 => hw0 m hs y (by simp only [blockSize]; omega)
    rw [runWrites_cons, ih (w m) (fun v hv => hw v (mem_cons_of_mem _ hv)) hs' x hx]
    exact hw0 m hs x hx

theorem leaves_superCopy (start : Nat) : LeavesSuper start superCopy :=
  fun m _ x hx => (superCopy_onlyIn m).same x (.inl hx)

theorem setBlock_leaves {blk x : Nat} (h1 : 1 ≤ blk) (h2 : blk < maxBlocks) (m d : Bytes) (hx : x < blockSize) :
    setBlock m blk d x = m x := setBlock_of_not_mem h2 (by simp only [blockSize] at hx; omega)

theorem leaves_jsEmpty {start : Nat} (h1 : 1 ≤ start) (h2 : start < maxBlocks) : LeavesSuper start jsEmpty := by
  intro m hs x hx
  have hjs : jsuper m = 4096 * start := by rw [jsuper, hs, blkPtr_eq h2]
  unfold jsEmpty
  rw [(jsSeal_onlyIn _ _).same x (by simp only [blockSize] at hx; omega), putLE,
    fill_of_not_mem (by simp only [blockSize] at hx; omega)]

theorem leaves_jsCopy {start : Nat} (h2 : start + 1 < maxBlocks) :
    LeavesSuper start fun m => jsCopy (jsuper m) m := by
  intro m hs x hx
  unfold jsCopy
  grind [setBlock_leaves]

/-- The writes between the two superblocks. -/
def middleWrites (mac : Mac) (fuel : Nat) (m : Bytes) : List (Bytes → Bytes) :=
  superCopy :: stores (replayTrace mac fuel m) ++ [jsEmpty, fun m => jsCopy (jsuper m) m]

theorem recoverWrites_eq (mac : Mac) (fuel : Nat) (m : Bytes) : recoverWrites mac fuel m =
    sealState mac markReplay :: (middleWrites mac fuel m ++ [sealState mac markRecovered, superCopy]) := by
  simp [recoverWrites, middleWrites]

/-- **A valid journal**: it is inside, its superblock has the magic number, its replay ends, and writes neither
    superblock. The replay is looked at as recovery meets it, with the flag set. -/
structure ValidJournal (mac : Mac) (fuel : Nat) (m : Bytes) : Prop where
  start : 2 ≤ journalStart m
  inside : journalStart m + 1 < maxBlocks
  magic : leAt m (jsuper m) 4 = Journal.journalMagic
  ends : ∃ r, (tracedReplay fuel ⟨flagged mac m, bootJ⟩).2 = some r
  targets : ∀ blk data, Access.write blk data ∈ replayTrace mac fuel m → 2 ≤ blk ∧ blk < maxBlocks

/-- A superblock that asks for recovery. -/
structure Dirty (mac : Mac) (m : Bytes) : Prop where
  super : SuperOk mac m 0
  dirty : sbState m &&& stateDirty ≠ 0
  fresh : sbState m &&& stateReplay = 0

theorem ValidJournal.leaves (h : ValidJournal mac fuel m) :
    ∀ w ∈ middleWrites mac fuel m, LeavesSuper (journalStart m) w := by
  have h1 := h.start
  have h2 := h.inside
  intro w hw
  rcases mem_append.1 hw with hw | hw
  · rcases mem_cons.1 hw with rfl | hw
    · exact leaves_superCopy _
    · obtain ⟨e, he, hst⟩ := mem_filterMap.1 hw
      cases e with
      | write blk data =>
        obtain rfl := Option.some.inj hst
        have hb := h.targets blk data he
        exact fun m _ x hx => setBlock_leaves (by omega) hb.2 m data hx
      | exam => cases hst
      | modBy d => cases hst
      | read blk => cases hst
  grind [leaves_jsEmpty, leaves_jsCopy]

theorem ValidJournal.middle (h : ValidJournal mac fuel m) (j : Nat) :
    ∀ x < blockSize, runWrites ((middleWrites mac fuel m).take j) (sealState mac markReplay m) x =
      sealState mac markReplay m x :=
  runWrites_leaves _ _ (fun w hw => h.leaves w (mem_of_mem_take hw)) (journalStart_sealState _)

theorem sbState_congr (h : ∀ x < blockSize, m' x = m x) : sbState m' = sbState m :=
  leAt_congr fun x _ h2 => h x (by simp only [blockSize]; omega)

theorem SuperOk.low (h : SuperOk mac m 0) (hs : ∀ x < blockSize, m' x = m x) : SuperOk mac m' 0 :=
  h.congr fun i hi => by rw [Nat.zero_add]; exact hs i hi

/-- The image at the clean superblock: it asks for no recovery, and only the copy is missing. -/
theorem ValidJournal.recovered (h : ValidJournal mac fuel m) (hd : Dirty mac m) : ∃ c,
    SuperOk mac c 0 ∧ sbState c &&& stateDirty = 0 ∧ runWrites (recoverWrites mac fuel m) m = superCopy c ∧
    runWrites (sealState mac markReplay :: (middleWrites mac fuel m ++ [sealState mac markRecovered])) m = c := by
  have hmid := h.middle (middleWrites mac fuel m).length
  rw [take_length] at hmid
  have hok : SuperOk mac (runWrites (middleWrites mac fuel m) (sealState mac markReplay m)) 0 :=
    (sealState_ok markReplay hd.super.header).low hmid
  refine ⟨sealState mac markRecovered (runWrites (middleWrites mac fuel m) (sealState mac markReplay m)),
    sealState_ok _ hok.header, ?_, ?_, ?_⟩
  · rw [sbState_sealState (markRecovered_lt _)]
    exact markRecovered_dirty _
  · rw [recoverWrites_eq, runWrites_cons, runWrites_append, runWrites_cons, runWrites_cons, runWrites_nil]
  · rw [runWrites_cons, runWrites_append, runWrites_cons, runWrites_nil]

theorem flagged_same {x : Nat} (h : x < 172 ∨ 176 ≤ x ∧ x < 4084 ∨ 8192 ≤ x) : flagged mac m x = m x := by
  rw [flagged, (superCopy_onlyIn _).same x (by omega), sealState_same _ (by omega)]

theorem journalStart_flagged : journalStart (flagged mac m) = journalStart m :=
  leAt_congr fun _ _ h2 => flagged_same (.inl (by omega))

theorem jsuper_jsEmpty (h1 : 1 ≤ journalStart m) (h2 : journalStart m < maxBlocks) : jsuper (jsEmpty m) = jsuper m :=
  congrArg blkPtr (leAt_congr fun x _ hx => leaves_jsEmpty h1 h2 m rfl x (by simp only [blockSize]; omega))

theorem ValidJournal.replay (h : ValidJournal mac fuel m) :
    ∃ s, Journal.flatfsJournalReplay fuel ⟨flagged mac m, bootJ⟩ = some (.ok, s) ∧
      runWrites (stores (replayTrace mac fuel m)) (flagged mac m) = s.mem := by
  have h1 := h.start
  have h2 := h.inside
  obtain ⟨⟨e, s⟩, hr⟩ := h.ends
  have hrun := stores_replay hr
  rw [tracedReplay_result] at hr
  have hmagic : leAt (flagged mac m) (jsuper (flagged mac m)) 4 = Journal.journalMagic := by
    have hjs : jsuper m = 4096 * journalStart m := by rw [jsuper, blkPtr_eq (by omega)]
    rw [jsuper, journalStart_flagged, ← jsuper, ← h.magic]
    exact leAt_congr fun x hx1 _ => flagged_same (by omega)
  have hok : e = .ok := by
    unfold Journal.flatfsJournalReplay at hr
    rw [if_neg (not_not.2 hmagic)] at hr
    obtain ⟨x, -, hx⟩ := Option.map_eq_some_iff.1 hr
    exact (congrArg Prod.fst hx).symm
  rw [hok] at hr
  exact ⟨s, hr, hrun⟩

theorem recover_writes (h : ValidJournal mac fuel m) (hd : Dirty mac m) :
    ∃ j, flatfsJournalRecover mac fuel ⟨m, bootJ⟩ = some (.ok, ⟨runWrites (recoverWrites mac fuel m) m, j⟩) := by
  have h1 := h.start
  have h2 := h.inside
  obtain ⟨s, hr, hrun⟩ := h.replay
  have hs : journalStart s.mem = journalStart m := by
    have hleaves := runWrites_leaves (stores (replayTrace mac fuel m)) (flagged mac m)
      (fun w hw => h.leaves w (mem_append_left _ (mem_cons_of_mem _ hw))) journalStart_flagged
    rw [← hrun]
    exact (leAt_congr fun x _ hx => hleaves x (by simp only [blockSize]; omega)).trans journalStart_flagged
  have hjs : jsuper (jsEmpty s.mem) = jsuper s.mem := jsuper_jsEmpty (by omega) (by omega)
  refine ⟨s.j, ?_⟩
  unfold flatfsJournalRecover
  rw [if_neg (not_not.2 hd.fresh)]
  dsimp only
  rw [← flagged, hr]
  dsimp only
  rw [recoverWrites_eq, middleWrites]
  simp only [runWrites_cons, runWrites_append, runWrites_nil, cons_append]
  rw [← flagged, hrun, hjs, flatfsJournalCheckpoint]

/-! ## 4. Interruptions -/

/-- The same image but for the backup in block 1. -/
structure ButBackup (m m' : Bytes) : Prop where
  same : ∀ x, x < blockSize ∨ blockSize + blockSize ≤ x → m' x = m x

section

variable (h : ButBackup m m')
include h

theorem ButBackup.copy : superCopy m' = superCopy m := by
  funext x
  unfold superCopy
  by_cases hx : blockSize ≤ x ∧ x < blockSize + blockSize
  · grind [fill_of_mem, h.same]
  grind [fill_of_not_mem, h.same]

theorem ButBackup.put {a n v v' : Nat} (hv : v' = v) : ButBackup (putLE m a n v) (putLE m' a n v') := by
  rw [hv]
  exact ⟨fun x hx => fill_congr (h.same x hx) a n _⟩

theorem ButBackup.bytesAt {n : Nat} (hn : n ≤ blockSize) : bytesAt m' 0 n = bytesAt m 0 n :=
  bytesAt_congr fun x _ h2 => h.same x (.inl (by omega))

theorem ButBackup.leAt {a n : Nat} (hn : a + n ≤ blockSize) : leAt m' a n = leAt m a n :=
  leAt_congr fun x _ h2 => h.same x (.inl (by omega))

theorem ButBackup.updateCrc : ButBackup (flatfsSuperUpdateCrc m 0) (flatfsSuperUpdateCrc m' 0) := by
  have hz := h.put (a := 0 + 4092) (n := 4) (v := 0) rfl
  exact hz.put (congrArg flatfsCrc32 (hz.bytesAt le_rfl))

theorem ButBackup.macSet :
    ButBackup (flatfsTykidMacSet mac m 0 blockSize) (flatfsTykidMacSet mac m' 0 blockSize) := by
  unfold flatfsTykidMacSet
  grind [h.put, h.bytesAt]

theorem ButBackup.sealState (f : Nat → Nat) : ButBackup (sealState mac f m) (sealState mac f m') := by
  have hst : sbState m' = sbState m := h.leAt (by decide)
  exact (h.put (by rw [hst])).updateCrc.macSet.updateCrc

theorem ButBackup.mountRest : mountRest mac m' = mountRest mac m := by
  have hd : flatfsSuperMarkDirty mac m' = flatfsSuperMarkDirty mac m :=
    ((h.put (by rw [h.leAt (by decide)])).sealState _).copy
  rw [Disk.mountRest, Disk.mountRest, hd]

end

end Parts

section Interrupted

variable (mac : Mac) (fuel cap : Nat)

/-- **A mount that is stopped after `k` writes of its recovery**; where it starts no recovery, none of those writes
    happens. -/
def interrupt (m : Bytes) (k : Nat) : Bytes :=
  match flatfsSuperRead mac m cap with
  | (.ok, m) =>
    if sbState m &&& stateDirty ≠ 0 ∧ sbState m &&& stateReplay = 0 then
      runWrites ((recoverWrites mac fuel m).take k) m
    else m
  | (_, m) => m

variable {mac fuel cap} {m m' : Bytes}

theorem take_recoverWrites (mac : Mac) (fuel : Nat) (m : Bytes) (k : Nat) :
    (∀ j, k = j + 1 → j ≤ (middleWrites mac fuel m).length →
      (recoverWrites mac fuel m).take k = sealState mac markReplay :: (middleWrites mac fuel m).take j) ∧
    ((recoverWrites mac fuel m).length ≤ k + 1 → (recoverWrites mac fuel m).take k =
          sealState mac markReplay :: (middleWrites mac fuel m ++ [sealState mac markRecovered]) ∨
        (recoverWrites mac fuel m).take k = recoverWrites mac fuel m) := by
  rw [recoverWrites_eq]
  refine ⟨fun j hk hj => ?_, fun hk => ?_⟩
  · rw [hk, take_succ_cons, take_append_of_le_length hj]
  · simp only [length_cons, length_append, length_nil] at hk
    by_cases hlast : k = (middleWrites mac fuel m).length + 2
    · left
      rw [hlast, take_succ_cons, take_append]
      simp
    grind [take_of_length_le]

section

variable (hcap : blockSize * 32 ≤ cap)
include hcap

theorem superRead_big (hs : SuperOk mac m 0) : flatfsSuperRead mac m cap = (.ok, m) :=
  superRead_of_ok hs (le_trans (by decide) hcap)

theorem interrupt_dirty (hd : Dirty mac m) (k : Nat) :
    interrupt mac fuel cap m k = runWrites ((recoverWrites mac fuel m).take k) m := by
  rw [interrupt, superRead_big hcap hd.super]
  exact if_pos ⟨hd.dirty, hd.fresh⟩

theorem interrupts_idle (hs : SuperOk mac m 0)
    (hst : sbState m &&& stateDirty = 0 ∨ sbState m &&& stateReplay ≠ 0) :
    ∀ ks : List Nat, ks.foldl (interrupt mac fuel cap) m = m := by
  intro ks
  induction ks with
  | nil => rfl
  | cons k ks ih =>
    have hk : interrupt mac fuel cap m k = m := by
      rw [interrupt, superRead_big hcap hs]
      exact if_neg fun h => hst.elim h.1 fun hr => hr h.2
    rw [foldl_cons, hk, ih]

theorem mount_flagged (hs : SuperOk mac m 0) (hd : sbState m &&& stateDirty ≠ 0)
    (hr : sbState m &&& stateReplay ≠ 0) : flatfsMount mac fuel cap m = some (.badstate, m) := by
  rw [flatfsMount, if_neg (Nat.not_lt.2 hcap), superRead_big hcap hs]
  dsimp only
  rw [if_pos hd, flatfsJournalRecover, if_pos hr]

theorem mount_clean (hs : SuperOk mac m 0) (hd : sbState m &&& stateDirty = 0) :
    flatfsMount mac fuel cap m = mountRest mac m := by
  rw [flatfsMount, if_neg (Nat.not_lt.2 hcap), superRead_big hcap hs]
  dsimp only
  rw [if_neg (not_not.2 hd)]

section

variable (h : ValidJournal mac fuel m) (hd : Dirty mac m)
include h hd

theorem mount_dirty : flatfsMount mac fuel cap m = mountRest mac (runWrites (recoverWrites mac fuel m) m) := by
  obtain ⟨j, hj⟩ := recover_writes h hd
  rw [flatfsMount, if_neg (Nat.not_lt.2 hcap), superRead_big hcap hd.super]
  dsimp only
  rw [if_pos hd.dirty, hj]

/-- Stopped behind a write and before the clean superblock: no later mount succeeds. -/
theorem mount_stopped_early {j : Nat} (hj : j ≤ (middleWrites mac fuel m).length) (ks : List Nat) :
    ∃ i, flatfsMount mac fuel cap (ks.foldl (interrupt mac fuel cap)
      (runWrites ((recoverWrites mac fuel m).take (j + 1)) m)) = some (.badstate, i) := by
  rw [(take_recoverWrites mac fuel m (j + 1)).1 j rfl hj, runWrites_cons]
  generalize hi : runWrites ((middleWrites mac fuel m).take j) (sealState mac markReplay m) = i
  have hlow : ∀ x < blockSize, i x = sealState mac markReplay m x := hi ▸ h.middle j
  have hok : SuperOk mac i 0 := (sealState_ok markReplay hd.super.header).low hlow
  have hst : sbState i = markReplay (sbState m) := by
    rw [sbState_congr hlow, sbState_sealState (markReplay_lt (leAt_lt m 172 4))]
  have hdirty : sbState i &&& stateDirty ≠ 0 := by
    rw [hst]
    exact and_or_ne_zero hd.dirty
  have hflag : sbState i &&& stateReplay ≠ 0 := by
    rw [hst]
    exact markReplay_replay _
  rw [interrupts_idle hcap hok (.inr hflag)]
  exact ⟨i, mount_flagged hcap hok hdirty hflag⟩

/-- Stopped behind the clean superblock: the next mount ends as the one without interruption. -/
theorem mount_stopped_late {k : Nat} (hk : (recoverWrites mac fuel m).length ≤ k + 1) (ks : List Nat) :
    flatfsMount mac fuel cap (ks.foldl (interrupt mac fuel cap) (runWrites ((recoverWrites mac fuel m).take k) m)) =
      flatfsMount mac fuel cap m := by
  obtain ⟨c, hok, hclean, hend, hstop⟩ := h.recovered hd
  have hcopy : ∀ x < blockSize, superCopy c x = c x := fun x hx => (superCopy_onlyIn c).same x (.inl hx)
  rw [mount_dirty hcap h hd, hend]
  rcases (take_recoverWrites mac fuel m k).2 hk with ht | ht
  · have hbut : ButBackup (superCopy c) c := ⟨fun x hx => ((superCopy_onlyIn c).same x hx).symm⟩
    grind [interrupts_idle, mount_clean, hbut.mountRest]
  · have hok' := hok.low hcopy
    have hclean' : sbState (superCopy c) &&& stateDirty = 0 := by rw [sbState_congr hcopy, hclean]
    grind [interrupts_idle, mount_clean]

/-- What a mount does after interruptions: the first that came behind a write decides. -/
theorem mount_interrupted :
    ∀ ks : List Nat, (∀ k ∈ ks.find? (· ≠ 0), (recoverWrites mac fuel m).length ≤ k + 1) ∧
        flatfsMount mac fuel cap (ks.foldl (interrupt mac fuel cap) m) = flatfsMount mac fuel cap m ∨
      (¬∀ k ∈ ks.find? (· ≠ 0), (recoverWrites mac fuel m).length ≤ k + 1) ∧
        ∃ i, flatfsMount mac fuel cap (ks.foldl (interrupt mac fuel cap) m) = some (.badstate, i) := by
  intro ks
  induction ks with
  | nil => exact .inl ⟨by simp, rfl⟩
  | cons k ks ih =>
    rw [foldl_cons, interrupt_dirty hcap hd]
    cases k with
    | zero => grind [runWrites_nil]
    | succ j =>
      rw [List.find?_cons_of_pos (by simp)]
      by_cases hk : (recoverWrites mac fuel m).length ≤ j + 1 + 1
      · grind [mount_stopped_late]
      · have hlen : (recoverWrites mac fuel m).length = (middleWrites mac fuel m).length + 3 := by
          rw [recoverWrites_eq]
          simp
        exact .inr ⟨fun hall => hk (hall _ rfl), mount_stopped_early hcap h hd (by omega) ks⟩

end

/-- A mount starts from what the reader leaves, and so does one that is stopped. -/
theorem flatfsMount_read {m₀ : Bytes} (hread : flatfsSuperRead mac m cap = (.ok, m₀)) :
    flatfsMount mac fuel cap m₀ = flatfsMount mac fuel cap m := by
  rw [flatfsMount, flatfsMount, if_neg (Nat.not_lt.2 hcap), if_neg (Nat.not_lt.2 hcap), hread,
    superRead_big hcap (superRead_ok hread)]

theorem interrupts_read {m₀ : Bytes} (hread : flatfsSuperRead mac m cap = (.ok, m₀))
    (ks : List Nat) : flatfsMount mac fuel cap (ks.foldl (interrupt mac fuel cap) m₀) =
      flatfsMount mac fuel cap (ks.foldl (interrupt mac fuel cap) m) := by
  cases ks with
  | nil => exact flatfsMount_read hcap hread
  | cons k ks => grind [interrupt, superRead_big, superRead_ok]

end

/-- **Interrupted recovery.** An image that the reader of superblocks accepts asks for recovery, and its journal is
    valid. However often the recovery is interrupted, the next mount succeeds and gives the journal's target blocks
    what the uninterrupted one gives them, exactly if the uninterrupted one succeeds and the first interruption that
    came behind a write came behind the clean superblock. -/
theorem recovery_interrupted_iff (m m₀ : Bytes) (hcap : blockSize * 32 ≤ cap)
    (hread : flatfsSuperRead mac m cap = (.ok, m₀)) (hdirty : sbState m₀ &&& stateDirty ≠ 0)
    (hfresh : sbState m₀ &&& stateReplay = 0) (hj : ValidJournal mac fuel m₀) (ks : List Nat) :
    (∃ r' e r, flatfsMount mac fuel cap (ks.foldl (interrupt mac fuel cap) m) = some (.ok, r') ∧
      flatfsMount mac fuel cap m = some (e, r) ∧
      ∀ blk data, Access.write blk data ∈ replayTrace mac fuel m₀ → blockOf r' blk = blockOf r blk) ↔
    (∃ r, flatfsMount mac fuel cap m = some (.ok, r)) ∧
      ∀ k ∈ ks.find? (· ≠ 0), (recoverWrites mac fuel m₀).length ≤ k + 1 := by
  have hd : Dirty mac m₀ := ⟨superRead_ok hread, hdirty, hfresh⟩
  rw [← flatfsMount_read hcap hread, ← interrupts_read hcap hread]
  rcases mount_interrupted hcap hj hd ks with ⟨hall, he⟩ | ⟨hnot, i, he⟩
  · rw [he]
    constructor
    · rintro ⟨r', _, _, hok, -⟩
      exact ⟨⟨r', hok⟩, hall⟩
    · rintro ⟨⟨r, hok⟩, -⟩
      exact ⟨r, .ok, r, hok, hok, fun _ _ _ => rfl⟩
  · rw [he]
    constructor
    · rintro ⟨_, _, _, hok, -⟩
      cases hok
    · rintro ⟨-, hall⟩
      exact absurd hall hnot

end Interrupted

/-! ## 5. An image -/

section Image

variable {mac : Mac} {fuel : Nat} {m : Bytes}

theorem markDirty_same {x : Nat} (h : x < 172 ∨ 8192 ≤ x) : flatfsSuperMarkDirty mac m x = m x := by
  unfold flatfsSuperMarkDirty
  rw [(superCopy_onlyIn _).same x (by omega), sealState_same _ (by omega), putLE,
    fill_of_not_mem (by omega)]

theorem journalInit_same (h1 : 1 ≤ journalStart m) (h2 : journalStart m + 1 < maxBlocks) {x : Nat}
    (hx : x < 4096 * journalStart m ∨ 4096 * (journalStart m + 2) ≤ x) : flatfsJournalInit m x = m x := by
  have hjs : jsuper m = 4096 * journalStart m := by rw [jsuper, blkPtr_eq (by omega)]
  unfold flatfsJournalInit
  dsimp only
  split_ifs with hm
  · have hbefore : ∀ y, y < jsuper m ∨ jsuper m + 4096 ≤ y → jsSeal (putLE (putLE (putLE (putLE (putLE (putLE
        (fill m (jsuper m) blockSize zeroBytes) (jsuper m) 4 Journal.journalMagic) (jsuper m + 4) 4 1) (jsuper m + 8) 8 1)
        (jsuper m + 32) 8 (journalStart m + 2)) (jsuper m + 40) 8 (sub64 (leAt m 72 8) 2)) (jsuper m + 60) 4 blockSize)
        (jsuper m) y = m y := by
      intro y hy
      rw [(jsSeal_onlyIn _ _).same y (by omega)]
      unfold putLE
      simp only [blockSize]
      simp (disch := omega) only [fill_of_not_mem]
    have hstart : ∀ i : Bytes, (∀ y, y < jsuper m ∨ jsuper m + 4096 ≤ y → i y = m y) → journalStart i = journalStart m :=
      fun i hi => leAt_congr fun y _ hy => hi y (by omega)
    unfold jsCopy setBlock
    grind [blkPtr_eq, fill_of_not_mem, blockSize]
  · rfl

/-- A superblock that was mounted: the journal starts in block 4 and the root of the tree is block 3. -/
def mountedHeader : Bytes :=
  putLE (putLE (putLE (putLE plainHeader 24 8 2048) 64 8 4) 96 8 3) 172 4 stateDirty

/-- An image of it with an empty journal. -/
def mountedImage : Bytes := putLE (superSeal none mountedHeader) 16384 4 Journal.journalMagic

theorem mountedImage_super : SuperOk none mountedImage 0 := by
  have hheader : HeaderOk mountedHeader 0 := ⟨by decide, by decide, by decide, by decide, by decide⟩
  refine (superSeal_ok hheader).low fun x hx => ?_
  rw [mountedImage, putLE, fill_of_not_mem (by simp only [blockSize] at hx; omega)]

theorem mountedImage_dirty : Dirty none mountedImage := ⟨mountedImage_super, by decide, by decide⟩

theorem mountedImage_journal : ValidJournal none 1 mountedImage := by
  have hends : (tracedReplay 1 ⟨flagged none mountedImage, bootJ⟩).2.isSome = true := by decide +kernel
  have htargets : (replayTrace none 1 mountedImage).all (fun a =>
      match a with | .write blk _ => 2 ≤ blk ∧ blk < maxBlocks | _ => true) = true := by decide +kernel
  refine ⟨by decide, by decide, by decide, Option.isSome_iff_exists.1 hends, fun blk data hw => ?_⟩
  simpa using List.all_eq_true.1 htargets _ hw

theorem mountedImage_mount : ∃ r, flatfsMount none 1 (blockSize * 32) mountedImage = some (.ok, r) := by
  have hcode : (flatfsMount none 1 (blockSize * 32) mountedImage).map Prod.fst = some .ok := by
    -- the checksum is not computed: `superSeal` has stored it
    rw [flatfsMount, if_neg (by decide), superRead_of_ok mountedImage_super (by decide)]
    decide +kernel
  obtain ⟨⟨e, r⟩, hr, rfl⟩ := Option.map_eq_some_iff.1 hcode
  exact ⟨r, hr⟩

/-- Stopped behind the first write, which is the superblock with the flag, the image cannot be mounted any more. -/
theorem recovery_stopped_after_flag : Dirty none mountedImage ∧ ValidJournal none 1 mountedImage ∧
    (∃ r, flatfsMount none 1 (blockSize * 32) mountedImage = some (.ok, r)) ∧
    ∃ i, flatfsMount none 1 (blockSize * 32) ([1].foldl (interrupt none 1 (blockSize * 32)) mountedImage) =
      some (.badstate, i) := by
  refine ⟨mountedImage_dirty, mountedImage_journal, mountedImage_mount, ?_⟩
  rw [foldl_cons, interrupt_dirty le_rfl mountedImage_dirty]
  exact mount_stopped_early le_rfl mountedImage_journal mountedImage_dirty (Nat.zero_le _) []

theorem recovery_interrupted_at_ends : ∃ r' e r,
    flatfsMount none 1 (blockSize * 32) ([0, (recoverWrites none 1 mountedImage).length].foldl
      (interrupt none 1 (blockSize * 32)) mountedImage) = some (.ok, r') ∧
    flatfsMount none 1 (blockSize * 32) mountedImage = some (e, r) ∧
    ∀ blk data, Access.write blk data ∈ replayTrace none 1 mountedImage → blockOf r' blk = blockOf r blk := by
  have hd := mountedImage_dirty
  refine (recovery_interrupted_iff mountedImage mountedImage le_rfl (superRead_of_ok hd.super (by decide)) hd.dirty
    hd.fresh mountedImage_journal _).2 ⟨mountedImage_mount, fun k hk => ?_⟩
  grind

end Image

end Kobalt.Flatfs.Disk
