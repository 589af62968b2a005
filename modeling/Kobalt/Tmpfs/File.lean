/-
  Subject: THE FILES OF TMPFS (`fs/tmpfs/tmpfs_file.c`): bytes in pages that hang off a table of
  tables, where an absent page stands for zeros.
-/
import Mathlib.Data.List.GetD
import Kobalt.Lib.Run
import Kobalt.Lib.Bytes

namespace Kobalt.Tmpfs

open Function List

/-! ## 1. The code -/

abbrev tmpfsPageSize : Nat := 4096

abbrev tmpfsL2Sz : Nat := 64

abbrev tmpfsL1Sz : Nat := 64

abbrev tmpfsMaxSz : Nat := tmpfsL1Sz * tmpfsL2Sz * tmpfsPageSize

inductive TmpfsType where
  | reg
  | dir
  | lnk
  deriving DecidableEq

inductive TmpfsCode where
  | ok
  | einval
  | efbig
  | enomem
  deriving DecidableEq, Repr

/-- `tmpfs_inode_t`, what the file functions use of it. -/
structure TmpfsInode where
  type : TmpfsType
  size : Nat
  pgL1 : Nat → Option (Nat → Option Bytes)

def tmpfsInodeAlloc (type : TmpfsType) : TmpfsInode := ⟨type, 0, fun _ => none⟩

section Code

variable (ip : TmpfsInode)

/-- The table entry of a page points to `pg`. -/
def setPage (pgidx : Nat) (pg : Option Bytes) : TmpfsInode :=
  let l1 := pgidx / tmpfsL2Sz
  let l2 := pgidx % tmpfsL2Sz
  { ip with pgL1 := update ip.pgL1 l1 (some (update ((ip.pgL1 l1).getD fun _ => none) l2 pg)) }

/-- `pg_get`. The pointer it returns is given by the page it points to. -/
def pgGet (pgidx : Nat) (alloc : Bool) : TmpfsInode × Option Bytes :=
  let l1 := pgidx / tmpfsL2Sz
  let l2 := pgidx % tmpfsL2Sz
  if l1 ≥ tmpfsL1Sz then (ip, none)
  else
    match ip.pgL1 l1 with
    | none => if alloc then (setPage ip pgidx (some zeroBytes), some zeroBytes) else (ip, none)
    | some table =>
      match table l2 with
      | none => if alloc then (setPage ip pgidx (some zeroBytes), some zeroBytes) else (ip, none)
      | some pg => (ip, some pg)

/-- The chunk of a round: what is left of the page, or of the request. -/
def chunkAt (off rem : Nat) : Nat :=
  let chunk := tmpfsPageSize - off % tmpfsPageSize
  if chunk > rem then rem else chunk

/-- `while (rem)` of `tmpfs_file_read`; every round takes at least one byte. -/
def readLoop (ip : TmpfsInode) : Nat → Nat → Nat → Text
  | 0, _, _ => []
  | fuel + 1, off, rem =>
    if rem = 0 then []
    else
      let pgoff := off % tmpfsPageSize
      let chunk := chunkAt off rem
      let part := match (pgGet ip (off / tmpfsPageSize % 2 ^ 32) false).2 with
        | some pg => (List.range chunk).map fun i => pg (pgoff + i)
        | none => List.replicate chunk 0
      part ++ readLoop ip fuel (off + chunk) (rem - chunk)

/-- `tmpfs_file_read`: the code and the bytes of the buffer up to `*got`. -/
def tmpfsFileRead (off len : Nat) : TmpfsCode × Text :=
  if ip.type ≠ .reg then (.einval, [])
  else if off ≥ ip.size then (.ok, [])
  else
    let len := if (off + len) % 2 ^ 64 > ip.size then ip.size - off else len
    (.ok, readLoop ip len off len)

/-- `while (rem)` of `tmpfs_file_write`; the answer has `cur` at the end. -/
def writeLoop : Nat → TmpfsInode → Nat → Text → TmpfsInode × Option Nat
  | 0, ip, cur, _ => (ip, some cur)
  | fuel + 1, ip, cur, src =>
    if src.length = 0 then (ip, some cur)
    else
      let pgidx := cur / tmpfsPageSize % 2 ^ 32
      let chunk := chunkAt cur src.length
      match pgGet ip pgidx true with
      | (ip, none) => (ip, none)
      | (ip, some pg) =>
        let pg := fill pg (cur % tmpfsPageSize) chunk fun i => src.getD i 0
        writeLoop fuel (setPage ip pgidx (some pg)) (cur + chunk) (src.drop chunk)

/-- `tmpfs_file_write`: the code and `*put`. -/
def tmpfsFileWrite (off : Nat) (buf : Text) : (TmpfsCode × Nat) × TmpfsInode :=
  if ip.type ≠ .reg then ((.einval, 0), ip)
  else if (off + buf.length) % 2 ^ 64 > tmpfsMaxSz then ((.efbig, 0), ip)
  else
    match writeLoop buf.length ip off buf with
    | (ip, none) => ((.enomem, 0), ip)
    | (ip, some cur) => ((.ok, buf.length), { ip with size := if cur > ip.size then cur else ip.size })

/-- `for (p = first_free; p < last_pg; p++)`, `n` rounds. -/
def freePages : Nat → TmpfsInode → Nat → TmpfsInode
  | 0, ip, _ => ip
  | n + 1, ip, p =>
    let l1 := p / tmpfsL2Sz
    if l1 ≥ tmpfsL1Sz ∨ (ip.pgL1 l1).isNone then freePages n ip (p + 1)
    else freePages n (setPage ip p none) (p + 1)

def tmpfsFileTruncate (newsz : Nat) : TmpfsCode × TmpfsInode :=
  if ip.type ≠ .reg then (.einval, ip)
  else if newsz > tmpfsMaxSz then (.efbig, ip)
  else
    let ip' :=
      if newsz < ip.size then
        let firstFree := (newsz + tmpfsPageSize - 1) / tmpfsPageSize % 2 ^ 32
        let lastPg := (ip.size + tmpfsPageSize - 1) / tmpfsPageSize % 2 ^ 32
        let ip := freePages (lastPg - firstFree) ip firstFree
        let tailOff := newsz % tmpfsPageSize
        let tailPg := newsz / tmpfsPageSize % 2 ^ 32
        if tailOff ≠ 0 then
          match pgGet ip tailPg false with
          | (ip, some pg) =>
            setPage ip tailPg (some (fill pg tailOff (tmpfsPageSize - tailOff) fun _ => 0))
          | (ip, none) => ip
        else ip
      else ip
    (.ok, { ip' with size := newsz })

end Code

/-! ## 2. The byte at an offset -/

/-- The page a table entry points to. -/
def pageAt (ip : TmpfsInode) (p : Nat) : Option Bytes := (pgGet ip p false).2

def byteAt (ip : TmpfsInode) : Bytes := fun x =>
  (pageAt ip (x / tmpfsPageSize)).getD zeroBytes (x % tmpfsPageSize)

section Pages

variable {ip : TmpfsInode} {p q x off : Nat} {pg : Option Bytes}

theorem maxSz_eq : tmpfsMaxSz = 16777216 := rfl

theorem pgGet_read : pgGet ip p false =
    (ip, if p / 64 ≥ 64 then none else (ip.pgL1 (p / 64)).bind fun table => table (p % 64)) := by
  unfold pgGet
  grind

theorem pageAt_eq : pageAt ip p =
    if p / 64 ≥ 64 then none else (ip.pgL1 (p / 64)).bind fun table => table (p % 64) := by
  rw [pageAt, pgGet_read]

theorem pgGet_false : pgGet ip p false = (ip, pageAt ip p) := by rw [pageAt, pgGet_read]

theorem byteAt_setSize (n : Nat) : byteAt { ip with size := n } = byteAt ip := by
  funext x
  simp only [byteAt, pageAt_eq]

theorem pageAt_setPage (hp : p < 4096) : pageAt (setPage ip p pg) q = if q = p then pg else pageAt ip q := by
  simp only [pageAt_eq, setPage, tmpfsL2Sz]
  by_cases hq : q / 64 = p / 64
  · rw [hq, update_self]
    by_cases h : q = p
    · rw [if_pos h, if_neg (by omega), h]
      simp
    · have hm : q % 64 ≠ p % 64 := by omega
      rw [if_neg h]
      cases ht : ip.pgL1 (p / 64) <;> simp [update_of_ne hm]
  grind

theorem pgGet_alloc (ip : TmpfsInode) (hp : p < 4096) : ∃ ip', pgGet ip p true = (ip', some ((pageAt ip p).getD zeroBytes)) ∧
    ip'.size = ip.size ∧ ip'.type = ip.type ∧ ∀ q, q ≠ p → pageAt ip' q = pageAt ip q := by
  have hl : ¬ p / 64 ≥ 64 := by omega
  have hfree : ∀ q, q ≠ p → pageAt (setPage ip p (some zeroBytes)) q = pageAt ip q := fun q hq => by
    rw [pageAt_setPage hp, if_neg hq]
  rw [pageAt_eq, if_neg hl]
  unfold pgGet
  simp only [tmpfsL1Sz, tmpfsL2Sz, if_neg hl]
  cases ht : ip.pgL1 (p / 64) with
  | none => exact ⟨_, rfl, rfl, rfl, hfree⟩
  | some table =>
    simp only [Option.bind_some]
    cases hpg : table (p % 64) with
    | none => exact ⟨_, rfl, rfl, rfl, hfree⟩
    | some pg => exact ⟨ip, rfl, rfl, rfl, fun _ _ => rfl⟩

theorem page_lt {k : Nat} (h : k < tmpfsMaxSz) :
    k / tmpfsPageSize % 2 ^ 32 = k / tmpfsPageSize ∧ k / tmpfsPageSize < 4096 := by grind

theorem byteAt_setPage {f : Nat → UInt8} {n : Nat} {k : Nat} {j : TmpfsInode} (hoff : k < tmpfsMaxSz)
    (hn : k % tmpfsPageSize + n ≤ tmpfsPageSize)
    (hother : ∀ q, q ≠ k / tmpfsPageSize → pageAt j q = pageAt ip q) :
    byteAt (setPage j (k / tmpfsPageSize) (some (fill
      ((pageAt ip (k / tmpfsPageSize)).getD zeroBytes) (k % tmpfsPageSize) n f))) = fill (byteAt ip) k n f := by
  funext x
  unfold byteAt
  rw [pageAt_setPage (page_lt hoff).2]
  simp only [tmpfsPageSize] at *
  by_cases hx : x / 4096 = k / 4096
  · rw [if_pos hx, Option.getD_some]
    simp only [fill, hx]
    grind
  · rw [if_neg hx, hother _ hx, fill_of_not_mem (by omega)]

theorem chunkAt_le (off rem : Nat) : chunkAt off rem ≤ rem ∧
    off % tmpfsPageSize + chunkAt off rem ≤ tmpfsPageSize ∧ (0 < rem → 0 < chunkAt off rem) := by
  simp only [chunkAt, tmpfsPageSize]
  split <;> omega

/-! ## 3. The loops -/

theorem readLoop_eq : ∀ (fuel off rem : Nat), rem ≤ fuel → off + rem ≤ tmpfsMaxSz →
    readLoop ip fuel off rem = (List.range rem).map fun i => byteAt ip (off + i) := by
  intro fuel
  induction fuel with
  | zero =>
    intro off rem h _
    have : rem = 0 := by omega
    subst this
    rfl
  | succ fuel ih =>
    intro off rem h hmax
    unfold readLoop
    by_cases h0 : rem = 0
    · simp [h0]
    obtain ⟨hle, hpage, hpos⟩ := chunkAt_le off rem
    generalize hn : chunkAt off rem = n
    rw [hn] at hle hpage hpos
    have hpos := hpos (by omega)
    obtain ⟨hidx, -⟩ := page_lt (k := off) (by omega)
    -- the chunk lies in one page
    have hpart : (match (pgGet ip (off / tmpfsPageSize) false).2 with
        | some pg => (List.range n).map fun i => pg (off % tmpfsPageSize + i)
        | none => List.replicate n 0) = (List.range n).map fun i => byteAt ip (off + i) := by
      have hbyte : ∀ i < n, byteAt ip (off + i) =
          (pageAt ip (off / tmpfsPageSize)).getD zeroBytes (off % tmpfsPageSize + i) := by
        intro i hi
        simp only [byteAt, tmpfsPageSize] at *
        rw [show (off + i) / 4096 = off / 4096 by omega, show (off + i) % 4096 = off % 4096 + i by omega]
      rw [map_congr_left fun i hi => hbyte i (mem_range.1 hi)]
      unfold pageAt
      cases (pgGet ip (off / tmpfsPageSize) false).2 with
      | some pg => rfl
      | none =>
        simp only [Option.getD_none, zeroBytes]
        rw [map_const', length_range]
    simp only [if_neg h0, hidx, hpart]
    rw [ih (off + n) (rem - n) (by omega) (by omega)]
    conv_rhs => rw [show rem = n + (rem - n) by omega, range_add, map_append, map_map]
    congr 1
    exact map_congr_left fun i _ => by
      simp only [comp_apply, Nat.add_assoc]

theorem fill_drop (m : Bytes) (a : Nat) (src : Text) (n : Nat) (hn : n ≤ src.length) :
    fill (fill m a n fun i => src.getD i 0) (a + n) (src.drop n).length (fun i => (src.drop n).getD i 0) =
      fill m a src.length fun i => src.getD i 0 := by
  simp only [length_drop, getD_eq_getElem?_getD, List.getElem?_drop]
  exact fill_fill m a (fun i => src[i]?.getD 0) hn

theorem writeLoop_eq : ∀ (fuel : Nat) (ip : TmpfsInode) (cur : Nat) (src : Text),
    src.length ≤ fuel → cur + src.length ≤ tmpfsMaxSz →
    ∃ ip', writeLoop fuel ip cur src = (ip', some (cur + src.length)) ∧ ip'.size = ip.size ∧
      ip'.type = ip.type ∧ byteAt ip' = fill (byteAt ip) cur src.length fun i => src.getD i 0 := by
  intro fuel
  induction fuel with
  | zero => grind [writeLoop, fill_zero]
  | succ fuel ih =>
    intro ip cur src h hmax
    unfold writeLoop
    by_cases h0 : src.length = 0
    · exact ⟨ip, by rw [if_pos h0, h0]; rfl, rfl, rfl, by rw [h0, fill_zero]⟩
    obtain ⟨hle, hpage, hpos⟩ := chunkAt_le cur src.length
    generalize hn : chunkAt cur src.length = n
    rw [hn] at hle hpage hpos
    have hpos := hpos (by omega)
    obtain ⟨hidx, hlt⟩ := page_lt (k := cur) (by omega)
    obtain ⟨ip1, he, hsz, hty, hother⟩ := pgGet_alloc ip hlt
    simp only [if_neg h0, hidx, he]
    obtain ⟨ip', he', hsz', hty', hb'⟩ := ih (setPage ip1 (cur / tmpfsPageSize) (some (fill
      ((pageAt ip (cur / tmpfsPageSize)).getD zeroBytes) (cur % tmpfsPageSize) n fun i => src.getD i 0)))
      (cur + n) (src.drop n) (by simp only [length_drop]; omega)
      (by simp only [length_drop]; omega)
    refine ⟨ip', ?_, hsz'.trans hsz, hty'.trans hty, ?_⟩
    · grind
    grind [byteAt_setPage, fill_drop]

theorem freePages_pageAt : ∀ (n : Nat) {ip : TmpfsInode} {p : Nat}, p + n ≤ 4096 →
    (freePages n ip p).type = ip.type ∧
    ∀ q, pageAt (freePages n ip p) q = if p ≤ q ∧ q < p + n then none else pageAt ip q := by
  intro n
  induction n with
  | zero => exact fun _ => ⟨rfl, fun q => (if_neg (by omega)).symm⟩
  | succ n ih =>
    intro ip p hp
    unfold freePages
    simp only [tmpfsL1Sz, tmpfsL2Sz]
    by_cases habs : p / 64 ≥ 64 ∨ (ip.pgL1 (p / 64)).isNone
    · rw [if_pos habs]
      obtain ⟨h2, h3⟩ := ih (p := p + 1) (by omega)
      refine ⟨h2, fun q => ?_⟩
      rw [h3 q]
      by_cases hq : q = p
      · rw [if_neg (by omega), if_pos (by omega), hq, pageAt_eq, if_neg (by omega)]
        grind [Option.isNone_iff_eq_none]
      grind
    · rw [if_neg habs]
      obtain ⟨h2, h3⟩ := ih (p := p + 1) (by omega)
      refine ⟨h2, fun q => ?_⟩
      rw [h3 q, pageAt_setPage (by omega)]
      grind

/-! The type of an inode never changes. -/

theorem pgGet_type (ip : TmpfsInode) (p : Nat) (alloc : Bool) : (pgGet ip p alloc).1.type = ip.type := by
  unfold pgGet
  dsimp only
  split_ifs
  · rfl
  · split
    · rfl
    · split <;> rfl
  · split
    · rfl
    · split <;> rfl

theorem writeLoop_type : ∀ (fuel : Nat) (ip : TmpfsInode) (cur : Nat) (src : Text),
    (writeLoop fuel ip cur src).1.type = ip.type := by
  intro fuel
  induction fuel with
  | zero => exact fun _ _ _ => rfl
  | succ fuel ih =>
    intro ip cur src
    unfold writeLoop
    split_ifs
    · rfl
    · have hty := pgGet_type ip (cur / tmpfsPageSize % 2 ^ 32) true
      dsimp only
      split
      · next he => rwa [he] at hty
      · next he =>
        rw [he] at hty
        rw [ih]
        exact hty

theorem freePages_type : ∀ (n : Nat) (ip : TmpfsInode) (p : Nat), (freePages n ip p).type = ip.type := by
  intro n
  induction n with
  | zero => exact fun _ _ => rfl
  | succ n ih => grind [freePages, setPage]

theorem tmpfsFileWrite_type (ip : TmpfsInode) (off : Nat) (buf : Text) :
    (tmpfsFileWrite ip off buf).2.type = ip.type := by grind [tmpfsFileWrite, writeLoop_type]

theorem tmpfsFileTruncate_type (ip : TmpfsInode) (newsz : Nat) : (tmpfsFileTruncate ip newsz).2.type = ip.type := by
  unfold tmpfsFileTruncate
  split_ifs
  · rfl
  · rfl
  · generalize h₁ : freePages ((ip.size + tmpfsPageSize - 1) / tmpfsPageSize % 2 ^ 32 -
        (newsz + tmpfsPageSize - 1) / tmpfsPageSize % 2 ^ 32) ip
        ((newsz + tmpfsPageSize - 1) / tmpfsPageSize % 2 ^ 32) = ip₁
    have hty : ip₁.type = ip.type := h₁ ▸ freePages_type ..
    dsimp only
    rw [h₁]
    split_ifs
    · have hty₂ := pgGet_type ip₁ (newsz / tmpfsPageSize % 2 ^ 32) false
      split
      · next he =>
        rw [he] at hty₂
        exact hty₂.trans hty
      grind
    · exact hty
  · rfl

end Pages

/-! ## 4. What a file is for -/

namespace Sparse

/-- The bytes up to `n`, with zeros past the end. -/
def extend (l : Text) (n : Nat) : Text := (l ++ List.replicate (n - l.length) 0).take n

def read (l : Text) (off len : Nat) : Text := (l.drop off).take len

/-- A write overwrites, a gap in front of it reads as zeros. -/
def write (l : Text) (off : Nat) (d : Text) : Text :=
  extend l off ++ d ++ l.drop (off + d.length)

variable {l d : Text} {n off x : Nat}

theorem extend_length : (extend l n).length = n := by grind [extend]

theorem extend_getD : (extend l n).getD x 0 = if x < n then l.getD x 0 else 0 := by grind [extend]

theorem write_length : (write l off d).length = if off + d.length > l.length then off + d.length else l.length := by
  grind [write, extend_length]

theorem write_getD : (write l off d).getD x 0 = fill (l.getD · 0) off d.length (d.getD · 0) x := by
  unfold write fill
  by_cases h1 : x < off
  · rw [if_neg (by omega), append_assoc, getD_append _ _ _ _ (by rwa [extend_length]),
      extend_getD, if_pos h1]
  · by_cases h2 : x < off + d.length
    · rw [if_pos (by omega), getD_append _ _ _ _ (by rw [length_append, extend_length]; omega),
        getD_append_right _ _ _ _ (by rw [extend_length]; omega), extend_length]
    · rw [if_neg (by omega), getD_append_right _ _ _ _
        (by rw [length_append, extend_length]; omega), length_append, extend_length]
      grind

theorem read_eq (h : off ≤ l.length) (len : Nat) : read l off len =
    (List.range (if off + len > l.length then l.length - off else len)).map fun i => l.getD (off + i) 0 := by
  apply ext_getElem
  · grind [read]
  grind [read]

end Sparse

/-- **The file holds the bytes `l`**, and zeros past their end. -/
structure Rep (ip : TmpfsInode) (l : Text) : Prop where
  type : ip.type = .reg
  size : ip.size = l.length
  bound : l.length ≤ tmpfsMaxSz
  bytes : ∀ x, byteAt ip x = l.getD x 0

section Calls

variable {ip : TmpfsInode} {l d : Text} {off len n : Nat}

section

variable (h : Rep ip l)
include h

theorem tmpfsFileRead_eq (hoff : off + len < 2 ^ 64) :
    tmpfsFileRead ip off len = (.ok, Sparse.read l off len) := by
  unfold tmpfsFileRead
  rw [if_neg (by simp [h.type])]
  by_cases hend : off ≥ ip.size
  · rw [if_pos hend]
    grind [h.size, Sparse.read, drop_eq_nil_of_le]
  · rw [if_neg hend]
    have hb := h.bound
    have hlt : off < l.length := by
      rw [← h.size]
      omega
    rw [Nat.mod_eq_of_lt hoff, h.size, Sparse.read_eq (by omega)]
    generalize hk : (if off + len > l.length then l.length - off else len) = k
    have hmax : off + k ≤ tmpfsMaxSz := by
      rw [← hk]
      split <;> omega
    grind [readLoop_eq, h.bytes]

theorem tmpfsFileWrite_efbig (hoff : off + d.length < 2 ^ 64)
    (hmax : ¬ off + d.length ≤ tmpfsMaxSz) : tmpfsFileWrite ip off d = ((.efbig, 0), ip) := by
  unfold tmpfsFileWrite
  rw [if_neg (by simp [h.type]), Nat.mod_eq_of_lt hoff, if_pos (Nat.not_le.1 hmax)]

theorem tmpfsFileWrite_rep (hmax : off + d.length ≤ tmpfsMaxSz) :
    ∃ ip', tmpfsFileWrite ip off d = ((.ok, d.length), ip') ∧ Rep ip' (Sparse.write l off d) := by
  have hb := h.bound
  have hlt : off + d.length < 2 ^ 64 := by
    rw [maxSz_eq] at hmax
    omega
  unfold tmpfsFileWrite
  rw [if_neg (by simp [h.type]), Nat.mod_eq_of_lt hlt, if_neg (Nat.not_lt.2 hmax)]
  obtain ⟨ip', he, hsz, hty, hbytes⟩ := writeLoop_eq d.length _ _ _ le_rfl hmax
  rw [he]
  refine ⟨_, rfl, hty.trans h.type, ?_, ?_, fun x => ?_⟩
  · simp only [Sparse.write_length, hsz, h.size]
  · rw [Sparse.write_length]
    split <;> omega
  · rw [byteAt_setSize, hbytes, Sparse.write_getD]
    exact fill_congr (h.bytes x) _ _ _

theorem truncated_byteAt (hn : n < ip.size) :
    ∃ ip', tmpfsFileTruncate ip n = (.ok, { ip' with size := n }) ∧ ip'.type = .reg ∧
      ∀ x, byteAt ip' x = if x < n then l.getD x 0 else 0 := by
  have hb := h.bound
  have hsz := h.size
  rw [maxSz_eq] at hb
  unfold tmpfsFileTruncate
  rw [if_neg (by simp [h.type]), if_neg (by rw [maxSz_eq]; omega), if_pos hn]
  simp only [tmpfsPageSize]
  obtain ⟨first, hfirst⟩ : ∃ p, p = (n + 4096 - 1) / 4096 % 2 ^ 32 := ⟨_, rfl⟩
  obtain ⟨last, hlast⟩ : ∃ p, p = (ip.size + 4096 - 1) / 4096 % 2 ^ 32 := ⟨_, rfl⟩
  rw [← hfirst, ← hlast]
  generalize h1 : freePages (last - first) ip first = ip1
  obtain ⟨hty, hpages⟩ := freePages_pageAt (last - first) (p := first) (by omega)
  rw [h1] at hty hpages
  -- what lies in a page kept is as before; the rest past the last page is beyond the end
  have hbyte : ∀ x, byteAt ip1 x = if x / 4096 < first then byteAt ip x else 0 := by
    intro x
    unfold byteAt
    rw [hpages]
    by_cases hx : x / 4096 < first
    · rw [if_neg (by simp only [tmpfsPageSize]; omega), if_pos hx]
    · rw [if_neg hx]
      by_cases hin : first ≤ x / tmpfsPageSize ∧ x / tmpfsPageSize < first + (last - first)
      · rw [if_pos hin]
        rfl
      · rw [if_neg hin]
        have hz := h.bytes x
        rw [getD_eq_default _ _ (by simp only [tmpfsPageSize] at hin; omega)] at hz
        exact hz
  obtain ⟨hidx, hlt⟩ := page_lt (k := n) (by rw [maxSz_eq]; omega)
  simp only [tmpfsPageSize] at hidx hlt
  rw [hidx]
  by_cases ht : n % 4096 = 0
  · refine ⟨ip1, by rw [if_neg (by simpa using ht)], hty.trans h.type, fun x => ?_⟩
    rw [hbyte, h.bytes]
    grind
  · rw [if_pos ht]
    rw [pgGet_false]
    have hcut : ∀ x, (if x / 4096 < first then l.getD x 0 else 0) =
        if x / 4096 ≤ n / 4096 then l.getD x 0 else 0 := by
      intro x
      by_cases hx : x / 4096 < first
      · rw [if_pos hx, if_pos (by omega)]
      · rw [if_neg hx, if_neg (by omega)]
    cases hp : pageAt ip1 (n / 4096) with
    | none =>
      refine ⟨ip1, rfl, hty.trans h.type, fun x => ?_⟩
      by_cases hx : x < n
      · rw [hbyte, h.bytes, hcut, if_pos (by omega), if_pos hx]
      · rw [if_neg hx]
        by_cases hx' : x / 4096 = n / 4096
        · simp only [byteAt, tmpfsPageSize, hx', hp]
          rfl
        · rw [hbyte, h.bytes, hcut, if_neg (by omega)]
    | some pg =>
      refine ⟨_, rfl, hty.trans h.type, fun x => ?_⟩
      have hset := byteAt_setPage (j := ip1) (k := n) (n := 4096 - n % 4096)
        (f := fun _ => 0) (by rw [maxSz_eq]; omega) (by simp only [tmpfsPageSize]; omega) fun _ _ => rfl
      simp only [tmpfsPageSize, hp, Option.getD_some] at hset
      rw [hset]
      unfold fill
      by_cases hin : n ≤ x ∧ x < n + (4096 - n % 4096)
      · rw [if_pos hin, if_neg (by omega)]
      · rw [if_neg hin, hbyte, h.bytes, hcut]
        grind

theorem tmpfsFileTruncate_efbig (hmax : ¬ n ≤ tmpfsMaxSz) : tmpfsFileTruncate ip n = (.efbig, ip) := by
  rw [tmpfsFileTruncate, if_neg (by simp [h.type]), if_pos (Nat.not_le.1 hmax)]

theorem tmpfsFileTruncate_rep (hmax : n ≤ tmpfsMaxSz) :
    ∃ ip', tmpfsFileTruncate ip n = (.ok, ip') ∧ Rep ip' (Sparse.extend l n) := by
  by_cases hn : n < ip.size
  · obtain ⟨ip', he, hty, hbytes⟩ := truncated_byteAt h hn
    refine ⟨_, he, hty, Sparse.extend_length.symm, Sparse.extend_length.symm ▸ hmax, fun x => ?_⟩
    rw [byteAt_setSize, Sparse.extend_getD]
    exact hbytes x
  · refine ⟨{ ip with size := n }, ?_, h.type, Sparse.extend_length.symm,
      Sparse.extend_length.symm ▸ hmax, fun x => ?_⟩
    · rw [tmpfsFileTruncate, if_neg (by simp [h.type]), if_neg (Nat.not_lt.2 hmax), if_neg hn]
    · rw [byteAt_setSize, Sparse.extend_getD]
      by_cases hx : x < n
      · rw [if_pos hx]
        exact h.bytes x
      · rw [if_neg hx]
        grind [h.bytes, h.size]

end

end Calls

/-! ## 5. Histories -/

inductive TmpfsOp where
  | read (off len : Nat)
  | write (off : Nat) (buf : Text)
  | truncate (newsz : Nat)

/-- `*got` or `*put` bytes and the code. -/
inductive TmpfsAns where
  | read (code : TmpfsCode) (buf : Text)
  | write (code : TmpfsCode) (put : Nat)
  | truncate (code : TmpfsCode)

def tmpfsStep (ip : TmpfsInode) : TmpfsOp → TmpfsAns × TmpfsInode
  | .read off len => (.read (tmpfsFileRead ip off len).1 (tmpfsFileRead ip off len).2, ip)
  | .write off buf =>
    (.write (tmpfsFileWrite ip off buf).1.1 (tmpfsFileWrite ip off buf).1.2, (tmpfsFileWrite ip off buf).2)
  | .truncate newsz => (.truncate (tmpfsFileTruncate ip newsz).1, (tmpfsFileTruncate ip newsz).2)

/-- **The sparse byte array**: a file of at most `TMPFS_MAX_SZ` bytes. -/
def sparseStep (l : Text) : TmpfsOp → TmpfsAns × Text
  | .read off len => (.read .ok (Sparse.read l off len), l)
  | .write off buf =>
    if off + buf.length ≤ tmpfsMaxSz then (.write .ok buf.length, Sparse.write l off buf)
    else (.write .efbig 0, l)
  | .truncate newsz =>
    if newsz ≤ tmpfsMaxSz then (.truncate .ok, Sparse.extend l newsz) else (.truncate .efbig, l)

/-- Offsets and lengths do not run past 64 bits, and writes are not empty. -/
def TmpfsOp.Admissible : TmpfsOp → Prop
  | .read off len => off + len < 2 ^ 64
  | .write off buf => off + buf.length < 2 ^ 64 ∧ buf ≠ []
  | .truncate newsz => newsz < 2 ^ 64

/-- **One call** answers as the byte array does, and the file holds its bytes afterwards. -/
theorem tmpfsStep_sim (ip : TmpfsInode) (l : Text) (op : TmpfsOp) (h : Rep ip l) (hop : op.Admissible) :
    (tmpfsStep ip op).1 = (sparseStep l op).1 ∧ Rep (tmpfsStep ip op).2 (sparseStep l op).2 := by
  cases op with
  | read off len =>
    simp only [tmpfsStep, sparseStep, tmpfsFileRead_eq h hop, true_and]
    exact h
  | write off buf =>
    by_cases hmax : off + buf.length ≤ tmpfsMaxSz
    · obtain ⟨ip', he, hrep⟩ := tmpfsFileWrite_rep h hmax
      simp only [tmpfsStep, sparseStep, he, if_pos hmax, true_and]
      exact hrep
    · simp only [tmpfsStep, sparseStep, tmpfsFileWrite_efbig h hop.1 hmax, if_neg hmax, true_and]
      exact h
  | truncate newsz =>
    by_cases hmax : newsz ≤ tmpfsMaxSz
    · obtain ⟨ip', he, hrep⟩ := tmpfsFileTruncate_rep h hmax
      simp only [tmpfsStep, sparseStep, he, if_pos hmax, true_and]
      exact hrep
    · simp only [tmpfsStep, sparseStep, tmpfsFileTruncate_efbig h hmax, if_neg hmax, true_and]
      exact h

theorem tmpfsInodeAlloc_rep : Rep (tmpfsInodeAlloc .reg) [] := by
  refine ⟨rfl, rfl, Nat.zero_le _, fun x => ?_⟩
  unfold byteAt
  rw [pageAt_eq]
  split <;> rfl

/-- **A tmpfs file is a sparse byte array**: every history of reads, writes and truncations of a
    regular file is answered as the array of its bytes answers it. -/
theorem tmpfs_file_sparse (ops : List TmpfsOp) (hops : ∀ op ∈ ops, op.Admissible) :
    answers tmpfsStep (tmpfsInodeAlloc .reg) ops = answers sparseStep [] ops :=
  answers_eq_of_sim tmpfsStep_sim ops tmpfsInodeAlloc_rep hops

/-- A write past the end, a cut, an extension: the bytes cut off come back as zeros. -/
theorem tmpfs_file_sparse_cut : answers tmpfsStep (tmpfsInodeAlloc .reg)
      [.write 2 [7, 8], .truncate 3, .truncate 5, .read 0 9] =
      [.write .ok 2, .truncate .ok, .truncate .ok, .read .ok [0, 0, 7, 0, 0]] :=
  (tmpfs_file_sparse [.write 2 [7, 8], .truncate 3, .truncate 5, .read 0 9]
    (by simp [TmpfsOp.Admissible])).trans rfl

end Kobalt.Tmpfs
