/-
  Subject: THE JOURNAL OF FLATFS (`flatfs_journal.c`, `flatfs_journal_tx.c`): transactions are
  logged in memory, written to a ring of blocks when they are committed, and replayed from it.

  The image is one store of bytes, since the tags of a descriptor are written without a look at the
  end of its block. The journal superblock (`flatfs_jsuper_t`) and the records (`flatfs_jrec_t`,
  `flatfs_jtag_t`) are read and written at their offsets. A commit is the list of its block writes, in
  order.
-/
import Kobalt.Lib.Run
import Kobalt.Lib.Writes
import Kobalt.Flatfs.Image

namespace Kobalt.Flatfs.Journal

/-! ## 1. The image -/

def journalMagic : Nat := 0x464A524e
def journalMaxTx : Nat := 256
def jrecDescriptor : Nat := 1
def jrecCommit : Nat := 2
def jrecRevoke : Nat := 3
def jtagLast : Nat := 1

/-- `blk_ptr`, from the start of the image. -/
def blkPtr (blk : Nat) : Nat := u64 (blk * blockSize)

section

variable (m : Bytes) (js : Nat)

/-- The bytes of a block. -/
def blockOf (blk : Nat) : Text := bytesAt m (blkPtr blk) blockSize

/-- `FMEMCPY(blk_ptr(blk), data, FLATFS_BLOCK_SIZE)` -/
def setBlock (blk : Nat) (data : Bytes) : Bytes := fill m (blkPtr blk) blockSize data

/-- `g_fs.super->journal_start` -/
def journalStart : Nat := leAt m 64 8

/-- The journal superblock. -/
def jsuper : Nat := blkPtr (journalStart m)

def jsHead : Nat := leAt m (js + 16) 8
def jsTail : Nat := leAt m (js + 24) 8
def jsLogStart : Nat := leAt m (js + 32) 8
def jsLogCount : Nat := leAt m (js + 40) 8

/-- The checksum of the journal superblock. -/
def jsSeal : Bytes :=
  let m := putLE m (js + 4092) 4 0
  putLE m (js + 4092) 4 (flatfsCrc32 (bytesAt m js blockSize))

end

/-- The block of the log at a position. -/
def logBlk (base cnt pos : Nat) : Nat := base + u64 pos % cnt

/-! ## 2. Transactions -/

/-- The blocks of a transaction, with their targets. -/
abbrev Tx := List (Nat × Bytes)

/-- `jstate_t`, without its counters. -/
structure JState where
  txSeq : Nat
  txId : Nat
  txActive : Bool
  tx : Tx
  revoke : List Nat

structure JSys where
  mem : Bytes
  j : JState

def flatfsJournalBegin (j : JState) : FlatfsErr × JState :=
  if j.txActive then (.badstate, j)
  else (.ok, { j with txActive := true, tx := [], txId := j.txSeq, txSeq := u64 (j.txSeq + 1) })

def flatfsJournalLog (j : JState) (id blk : Nat) (data : Bytes) : FlatfsErr × JState :=
  if j.txActive = false ∨ id ≠ j.txId then (.badstate, j)
  else if j.tx.length ≥ journalMaxTx then (.overflow, j)
  else (.ok, { j with tx := j.tx ++ [(blk, data)] })

def flatfsJournalAbort (j : JState) (id : Nat) : FlatfsErr × JState :=
  if j.txActive = false ∨ id ≠ j.txId then (.badstate, j)
  else (.ok, { j with txActive := false, tx := [] })

/-- The fields of a record. -/
def jrecSet (m : Bytes) (a type seq count : Nat) : Bytes :=
  putLE (putLE (putLE (putLE m a 4 journalMagic) (a + 4) 4 type) (a + 8) 8 seq) (a + 16) 4 count

def jrecSeal (m : Bytes) (a : Nat) : Bytes :=
  let m := putLE m (a + 20) 4 0
  putLE m (a + 20) 4 (flatfsCrc32 (bytesAt m a blockSize))

/-- Where tag `i` of the descriptor at `a` is. -/
def tagAt (a i : Nat) : Nat := a + 24 + 16 * i

def jtagSet (m : Bytes) (a target flags crc : Nat) : Bytes :=
  putLE (putLE (putLE m a 8 target) (a + 8) 4 flags) (a + 12) 4 crc

/-- The tags from `i` on; nothing stops them at the end of the block. -/
def putTags (a n : Nat) : Bytes → Nat → Tx → Bytes
  | m, _, [] => m
  | m, i, w :: tx =>
    putTags a n (jtagSet m (tagAt a i) w.1 (if i = n - 1 then jtagLast else 0)
      (flatfsCrc32 (bytesAt w.2 0 blockSize))) (i + 1) tx

/-- The descriptor is written. -/
def writeDesc (a seq : Nat) (tx : Tx) (m : Bytes) : Bytes :=
  jrecSeal (putTags a tx.length (jrecSet (fill m a blockSize zeroBytes) a jrecDescriptor seq tx.length) 0 tx) a

/-- The commit record is written. -/
def writeCommit (a seq : Nat) (m : Bytes) : Bytes :=
  jrecSeal (jrecSet (fill m a blockSize zeroBytes) a jrecCommit seq 0) a

/-- The journal superblock gets the new end of the log. -/
def jsCommit (js tail id seq : Nat) (m : Bytes) : Bytes :=
  jsSeal (putLE (putLE (putLE m (js + 24) 8 tail) (js + 48) 8 id) (js + 8) 8 seq) js

/-- The journal superblock is copied to the block behind it. -/
def jsCopy (js : Nat) (m : Bytes) : Bytes := setBlock m (journalStart m + 1) fun i => m (js + i)

/-- The writes of a commit to the log, from position `pos` on: the descriptor, the data, the commit
    record. -/
def logWrites (base cnt pos id : Nat) (tx : Tx) : List (Bytes → Bytes) :=
  [writeDesc (blkPtr (logBlk base cnt pos)) id tx] ++
  (tx.mapIdx fun i w m => setBlock m (logBlk base cnt (pos + 1 + i)) w.2) ++
  [writeCommit (blkPtr (logBlk base cnt (pos + 1 + tx.length))) id]

/-- The writes of a commit in place. -/
def placeWrites (tx : Tx) : List (Bytes → Bytes) := tx.map fun w m => setBlock m w.1 w.2

/-- **The writes of `flatfs_journal_commit`, in order**: the log, the targets in place, the journal
    superblock and its copy. -/
def commitWrites (m : Bytes) (j : JState) : List (Bytes → Bytes) :=
  let js := jsuper m
  let pos := jsTail m js
  logWrites (jsLogStart m js) (jsLogCount m js) pos j.txId j.tx ++ placeWrites j.tx ++
    [jsCommit js (u64 (pos + j.tx.length + 2)) j.txId j.txSeq, jsCopy js]

def runWrites (ws : List (Bytes → Bytes)) (m : Bytes) : Bytes := ws.foldl (fun m w => w m) m

/-- `flatfs_journal_commit`, with what `flatfs_tykid_seal_check` answers. -/
def flatfsJournalCommit (s : JSys) (id : Nat) (sealErr : FlatfsErr) : FlatfsErr × JSys :=
  if s.j.txActive = false ∨ id ≠ s.j.txId then (.badstate, s)
  else if sealErr ≠ .ok then (sealErr, { s with j := (flatfsJournalAbort s.j id).2 })
  else (.ok, ⟨runWrites (commitWrites s.mem s.j) s.mem, { s.j with txActive := false, tx := [] }⟩)

/-! ## 3. Replay -/

/-- `for (i = 0; i < cnt; i++)` of `flatfs_journal_replay`, `k` rounds from tag `i` on. -/
def replayTags (rev : List Nat) (base cnt a : Nat) : Nat → Nat → Nat → Bytes → Bytes
  | 0, _, _, m => m
  | k + 1, i, dpos, m =>
    let target := leAt m (tagAt a i) 8
    let src := blkPtr (logBlk base cnt dpos)
    let hit := target ∉ rev ∧ flatfsCrc32 (bytesAt m src blockSize) = leAt m (tagAt a i + 12) 4
    replayTags rev base cnt a k (i + 1) (dpos + 1) (if hit then setBlock m target fun x => m (src + x) else m)

/-- The blocks of a revoke record, as far as there is room for them. -/
def revokeAll (m : Bytes) (a count : Nat) (rev : List Nat) : List Nat :=
  rev ++ (List.range (min count (256 - rev.length))).map fun i => leAt m (a + 24 + 8 * i) 8

/-- `while (pos != limit)`; `none` if the rounds do not suffice. -/
def replayLoop (base cnt limit : Nat) : Nat → Nat → Bytes → List Nat → Option (Nat × Bytes × List Nat)
  | 0, _, _, _ => none
  | fuel + 1, pos, m, rev =>
    if pos = limit then some (pos, m, rev)
    else
      let a := blkPtr (logBlk base cnt pos)
      let count := leAt m (a + 16) 4
      if leAt m a 4 ≠ journalMagic then some (pos, m, rev)
      else if leAt m (a + 4) 4 = jrecDescriptor then
        replayLoop base cnt limit fuel (u64 (pos + 1 + count)) (replayTags rev base cnt a count 0 (pos + 1) m) rev
      else if leAt m (a + 4) 4 = jrecCommit then replayLoop base cnt limit fuel (u64 (pos + 1)) m rev
      else if leAt m (a + 4) 4 = jrecRevoke then
        replayLoop base cnt limit fuel (u64 (pos + 1)) m (revokeAll m a count rev)
      else some (pos, m, rev)

def flatfsJournalReplay (fuel : Nat) (s : JSys) : Option (FlatfsErr × JSys) :=
  let js := jsuper s.mem
  if leAt s.mem js 4 ≠ journalMagic then some (.journal, s)
  else
    (replayLoop (jsLogStart s.mem js) (jsLogCount s.mem js) (jsTail s.mem js) fuel (jsHead s.mem js) s.mem
        s.j.revoke).map fun r =>
      (.ok, ⟨jsSeal (putLE r.2.1 (js + 16) 8 r.1) js, { s.j with revoke := r.2.2 }⟩)

end Kobalt.Flatfs.Journal
