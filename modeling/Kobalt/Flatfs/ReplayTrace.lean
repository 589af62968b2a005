/-
  Subject: WHAT A REPLAY TOUCHES (`flatfs_journal_replay`): the records it examines, the numbers it
  divides by, the blocks it reads and writes.

  Head, tail, start and length of the log, the counts of the records and the targets of the tags are
  taken from the disk as they are. The traced replay notes every access beside what it computes.
-/
import Kobalt.Flatfs.Supers

namespace Kobalt.Flatfs.Journal

open Disk List

/-- What a replay does: examine a record, take a remainder, read or write a block. -/
inductive Access where
  | exam
  | modBy (d : Nat)
  | read (blk : Nat)
  | write (blk : Nat) (data : Bytes)

/-- The number of the block at a position of the log. -/
def logNo (base cnt pos : Nat) : Nat := u64 (logBlk base cnt pos)

section Walk

variable (base cnt : Nat)

/-- Is the block of tag `i` copied? It is not revoked, and its checksum is right. -/
def TagHit (rev : List Nat) (a i dpos : Nat) (m : Bytes) : Prop :=
  leAt m (tagAt a i) 8 ∉ rev ∧
    flatfsCrc32 (bytesAt m (blkPtr (logBlk base cnt dpos)) blockSize) = leAt m (tagAt a i + 12) 4

instance (rev : List Nat) (a i dpos : Nat) (m : Bytes) : Decidable (TagHit base cnt rev a i dpos m) :=
  inferInstanceAs (Decidable (_ ∧ _))

/-- The accesses for tag `i` of the descriptor in block `blk`, at `a`: its target, and if that is not revoked
    the data, the checksum, and the target block. -/
def tagAccesses (rev : List Nat) (blk a i dpos : Nat) (m : Bytes) : List Access :=
  [.modBy cnt, .read (blk + (24 + 16 * i) / blockSize)] ++
    (if leAt m (tagAt a i) 8 ∈ rev then []
     else [.read (logNo base cnt dpos), .read (blk + (36 + 16 * i) / blockSize)]) ++
    if TagHit base cnt rev a i dpos m then
      [.write (leAt m (tagAt a i) 8) fun x => m (blkPtr (logBlk base cnt dpos) + x)] else []

/-- One round of the tags of a descriptor. -/
def replayTag (rev : List Nat) (a i dpos : Nat) (m : Bytes) : Bytes :=
  if TagHit base cnt rev a i dpos m then
    setBlock m (leAt m (tagAt a i) 8) fun x => m (blkPtr (logBlk base cnt dpos) + x) else m

/-- The accesses for `k` tags from tag `i` on. -/
def tagsAccesses (rev : List Nat) (blk a : Nat) : Nat → Nat → Nat → Bytes → List Access
  | 0, _, _, _ => []
  | k + 1, i, dpos, m =>
    tagAccesses base cnt rev blk a i dpos m ++
      tagsAccesses rev blk a k (i + 1) (dpos + 1) (replayTag base cnt rev a i dpos m)

/-- The descriptor at a position. -/
def IsDescriptor (pos : Nat) (m : Bytes) : Prop :=
  leAt m (blkPtr (logBlk base cnt pos)) 4 = journalMagic ∧
    leAt m (blkPtr (logBlk base cnt pos) + 4) 4 = jrecDescriptor

instance (pos : Nat) (m : Bytes) : Decidable (IsDescriptor base cnt pos m) := inferInstanceAs (Decidable (_ ∧ _))

/-- The blocks a record counts. -/
def recordCount (pos : Nat) (m : Bytes) : Nat := leAt m (blkPtr (logBlk base cnt pos) + 16) 4

/-- The accesses for the record at a position. -/
def recordAccesses (pos : Nat) (m : Bytes) (rev : List Nat) : List Access :=
  [.exam, .modBy cnt, .read (logNo base cnt pos)] ++
    if IsDescriptor base cnt pos m then
      tagsAccesses base cnt rev (logNo base cnt pos) (blkPtr (logBlk base cnt pos)) (recordCount base cnt pos m)
        0 (pos + 1) m
    else []

/-- The body of the loop; no next position where it breaks. -/
def recordStep (pos : Nat) (m : Bytes) (rev : List Nat) : Option (Nat × Bytes × List Nat) :=
  let a := blkPtr (logBlk base cnt pos)
  let count := recordCount base cnt pos m
  if leAt m a 4 ≠ journalMagic then none
  else if leAt m (a + 4) 4 = jrecDescriptor then
    some (u64 (pos + 1 + count), replayTags rev base cnt a count 0 (pos + 1) m, rev)
  else if leAt m (a + 4) 4 = jrecCommit then some (u64 (pos + 1), m, rev)
  else if leAt m (a + 4) 4 = jrecRevoke then some (u64 (pos + 1), m, revokeAll m a count rev)
  else none

/-- `while (pos != limit)`, with its accesses. -/
def tracedLoop (limit : Nat) : Nat → Nat → Bytes → List Nat → List Access × Option (Nat × Bytes × List Nat)
  | 0, _, _, _ => ([], none)
  | fuel + 1, pos, m, rev =>
    if pos = limit then ([], some (pos, m, rev))
    else
      match recordStep base cnt pos m rev with
      | none => (recordAccesses base cnt pos m rev, some (pos, m, rev))
      | some x =>
        let t := tracedLoop limit fuel x.1 x.2.1 x.2.2
        (recordAccesses base cnt pos m rev ++ t.1, t.2)

variable {base cnt}

theorem replayTags_succ (rev : List Nat) (a k i dpos : Nat) (m : Bytes) :
    replayTags rev base cnt a (k + 1) i dpos m =
      replayTags rev base cnt a k (i + 1) (dpos + 1) (replayTag base cnt rev a i dpos m) := rfl

theorem replayLoop_succ (limit fuel pos : Nat) (m : Bytes) (rev : List Nat) :
    replayLoop base cnt limit (fuel + 1) pos m rev = if pos = limit then some (pos, m, rev) else
        match recordStep base cnt pos m rev with
        | none => some (pos, m, rev)
        | some x => replayLoop base cnt limit fuel x.1 x.2.1 x.2.2 := by
  grind [replayLoop, recordStep, recordCount]

theorem tracedLoop_result (limit : Nat) : ∀ (fuel pos : Nat) (m : Bytes) (rev : List Nat),
    (tracedLoop base cnt limit fuel pos m rev).2 = replayLoop base cnt limit fuel pos m rev := by
  intro fuel
  induction fuel with
  | zero => exact fun _ _ _ => rfl
  | succ fuel ih => grind [replayLoop_succ, tracedLoop]

end Walk

/-- `flatfs_journal_replay` with its accesses: the journal superblock, the log, the journal superblock again. -/
def tracedReplay (fuel : Nat) (s : JSys) : List Access × Option (FlatfsErr × JSys) :=
  let js := jsuper s.mem
  let start := journalStart s.mem
  if leAt s.mem js 4 ≠ journalMagic then ([.read start], some (.journal, s))
  else
    let t := tracedLoop (jsLogStart s.mem js) (jsLogCount s.mem js) (jsTail s.mem js) fuel (jsHead s.mem js)
      s.mem s.j.revoke
    match t.2 with
    | none => (.read start :: t.1, none)
    | some r =>
      let mem := jsSeal (putLE r.2.1 (js + 16) 8 r.1) js
      (.read start :: t.1 ++ [.write start fun x => mem (js + x)], some (.ok, ⟨mem, { s.j with revoke := r.2.2 }⟩))

theorem tracedReplay_result (fuel : Nat) (s : JSys) : (tracedReplay fuel s).2 = flatfsJournalReplay fuel s := by
  unfold tracedReplay flatfsJournalReplay
  dsimp only
  split
  · rfl
  rw [← tracedLoop_result]
  cases (tracedLoop ..).2 <;> rfl

end Kobalt.Flatfs.Journal
