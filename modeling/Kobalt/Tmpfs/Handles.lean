/-
  Subject: OPEN FILES OF TMPFS (`fs/vfs/vfs.c` over `fs/vfs/tmpfs_vfs.c`): a descriptor holds a
  handle, and the handle points to an inode.

  Beside the code's state, `TfSys` keeps which file is at an address, since addresses are used again,
  what was written to each file, and how often its inode was freed (`FileLog`).
-/
import Kobalt.Tmpfs.Ops

namespace Kobalt.Tmpfs

open Function Option

variable {i : Inode} {t : NameTree Nat Name} {ents tab : Nat → List Nat}

/-! ## 1. The code -/

def vfsMaxFds : Nat := 256

/-- An entry of `g_fd`. -/
structure VfsFd where
  /-- `priv`, the `tf_hdl_t` -/
  hdl : Nat
  pos : Nat
  append : Bool
  deriving DecidableEq, Repr

/-- What became of a file. -/
structure FileLog where
  ino : Nat
  contents : TmpfsInode
  /-- how often its inode was freed -/
  frees : Nat

structure TfSys where
  sb : Sb
  /-- the inode a handle points to -/
  hdl : Nat → Option Nat
  fd : Nat → Option VfsFd
  /-- the file whose inode is at an address; the root is file 0 -/
  who : Nat → Nat
  files : Nat → FileLog
  /-- the files made so far are 0 to `count` -/
  count : Nat
  /-- the file a descriptor was opened on -/
  opened : Nat → Nat

def TfSys.mount (root : Nat) : TfSys where
  sb := Sb.mount root
  hdl := fun _ => none
  fd := fun _ => none
  who := fun _ => 0
  files := fun _ => ⟨1, tmpfsInodeAlloc .dir, 0⟩
  count := 0
  opened := fun _ => 0

section Code

variable (s : TfSys)

/-- The inode at `ip`, if the operation made one there, is a new file. -/
def TfSys.settle (ip : Nat) (sb : Sb) : TfSys :=
  match s.sb.inode ip, sb.inode ip with
  | none, some i =>
    { s with
      sb := sb
      who := update s.who ip (s.count + 1)
      files := update s.files (s.count + 1) ⟨i.ino, i.file, 0⟩
      count := s.count + 1 }
  | _, _ => { s with sb := sb }

/-- The inode at `tgt`, if the operation freed it, is noted. -/
def TfSys.note (tgt : Nat) (sb : Sb) : TfSys :=
  match s.sb.inode tgt, sb.inode tgt with
  | some _, none =>
    { s with
      sb := sb
      files := update s.files (s.who tgt)
        { s.files (s.who tgt) with frees := (s.files (s.who tgt)).frees + 1 } }
  | _, _ => { s with sb := sb }

inductive TfOp where
  | openFile (rel : Text) (creat append : Bool) (m : Mem)
  | read (n len : Nat)
  | write (n : Nat) (buf : Text)
  | truncate (n sz : Nat)
  | close (n : Nat)
  | unlink (rel : Text)
  | mkdir (rel : Text) (m : Mem)
  | rmdir (rel : Text)
  deriving DecidableEq, Repr

inductive TfEvent where
  | code (c : NsCode)
  | opened (n : Nat)
  | bytes (c : TmpfsCode) (bs : Text)
  | wrote (c : TmpfsCode) (put : Nat)
  | truncated (c : TmpfsCode)
  | closed
  | badf
  /-- a pointer to nothing was followed -/
  | dangling
  deriving DecidableEq, Repr

/-- The entry of a descriptor that is in use. -/
def TfSys.entry (n : Nat) : Option VfsFd := if n < vfsMaxFds then s.fd n else none

/-- The inode behind a handle. -/
def TfSys.behind (f : VfsFd) : Option (Nat × Inode) :=
  (s.hdl f.hdl).bind fun ip => (s.sb.inode ip).map fun i => (ip, i)

def TfSys.allocFd : Option Nat := (List.range vfsMaxFds).find? fun n => (s.fd n).isNone

/-- The descriptor `n` gets a handle to the inode `ip`. -/
def TfSys.openFd (n ip hdl : Nat) (append : Bool) : TfSys :=
  { s with
    hdl := update s.hdl hdl (some ip)
    fd := update s.fd n (some ⟨hdl, 0, append⟩)
    opened := update s.opened n (s.who ip) }

def TfSys.setPos (n : Nat) (f : VfsFd) (pos : Nat) : TfSys :=
  { s with fd := update s.fd n (some { f with pos := pos }) }

/-- The file `k` with its inode at `ip` is changed; its own contents are changed in the same way. -/
def TfSys.setFile (ip : Nat) (i : Inode) (k : Nat) (f : TmpfsInode → TmpfsInode) : TfSys :=
  { s with
    sb := { s.sb with inode := update s.sb.inode ip (some { i with file := f i.file }) }
    files := update s.files k { s.files k with contents := f (s.files k).contents } }

/-- Where `vfs_write` writes. -/
def VfsFd.offset (f : VfsFd) (file : TmpfsInode) : Nat := if f.append then file.size else f.pos

def tfStep : TfOp → TfEvent × TfSys
  | .openFile rel creat append m =>
    match s.allocFd, tfOpen s.sb rel creat m with
    | none, _ => (.code .enomem, s)
    | some _, none => (.dangling, s)
    | some n, some (code, ip, sb) =>
      if code = .ok then (.opened n, (s.settle m.ip sb).openFd n ip m.hdl append)
      else (.code code, s.settle m.ip sb)
  | .read n len =>
    match s.entry n with
    | none => (.badf, s)
    | some f =>
      match s.behind f with
      | none => (.dangling, s)
      | some (_, i) =>
        let r := tmpfsFileRead i.file f.pos len
        (.bytes r.1 r.2, if r.1 = .ok then s.setPos n f (f.pos + r.2.length) else s)
  | .write n buf =>
    match s.entry n with
    | none => (.badf, s)
    | some f =>
      match s.behind f with
      | none => (.dangling, s)
      | some (ip, i) =>
        let r := tmpfsFileWrite i.file (f.offset i.file) buf
        let s' := s.setFile ip i (s.opened n) fun file => (tmpfsFileWrite file (f.offset file) buf).2
        (.wrote r.1.1 r.1.2, if r.1.1 = .ok then s'.setPos n f (f.offset i.file + r.1.2) else s')
  | .truncate n sz =>
    match s.entry n with
    | none => (.badf, s)
    | some f =>
      match s.behind f with
      | none => (.dangling, s)
      | some (ip, i) =>
        (.truncated (tmpfsFileTruncate i.file sz).1,
          s.setFile ip i (s.opened n) fun file => (tmpfsFileTruncate file sz).2)
  | .close n =>
    match s.entry n with
    | none => (.closed, s)
    | some f => (.closed, { s with fd := update s.fd n none, hdl := update s.hdl f.hdl none })
  | .unlink rel =>
    match tfTarget s.sb rel, tfUnlink s.sb rel with
    | some tgt, some (code, sb) => (.code code, s.note tgt sb)
    | _, _ => (.dangling, s)
  | .mkdir rel m =>
    match tfMkdir s.sb rel m with
    | some (code, sb) => (.code code, s.settle m.ip sb)
    | none => (.dangling, s)
  | .rmdir rel =>
    match tfTarget s.sb rel, tfRmdir s.sb rel with
    | some tgt, some (code, sb) => (.code code, s.note tgt sb)
    | _, _ => (.dangling, s)

end Code

/-! ## 2. What open files are owed -/

/-- Some directory has an entry with the number. -/
def Sb.Linked (s : Sb) (ino : Nat) : Prop :=
  ∃ a i l, s.inode a = some i ∧ Chain s.dirent Dirent.next i.deHead l ∧
    ∃ d ∈ l, ∃ e, s.dirent d = some e ∧ e.ino = ino

/-- The file is linked (the root always is), or open. -/
def TfSys.InUse (s : TfSys) (k : Nat) : Prop :=
  k = 0 ∨ s.sb.Linked (s.files k).ino ∨ ∃ n f, s.fd n = some f ∧ s.opened n = k

/-- **The law of open files.** -/
structure HandleLaw (s : TfSys) : Prop where
  pointer : ∀ n f, s.fd n = some f → ∃ ip i, s.behind f = some (ip, i) ∧ s.who ip = s.opened n ∧
    i.file = (s.files (s.opened n)).contents
  inUse : ∀ k ≤ s.count, s.InUse k → (s.files k).frees = 0
  unused : ∀ k ≤ s.count, ¬ s.InUse k → (s.files k).frees = 1

/-- `kmalloc` gives what it may give. -/
def TfOp.Given (hp : Mm.HeapPool) (s : TfSys) : TfOp → Prop
  | .openFile _ _ _ m => Fresh hp s.sb.inode m.ip ∧ Fresh hp s.sb.dirent m.de ∧ Fresh hp s.hdl m.hdl
  | .mkdir _ m => Fresh hp s.sb.inode m.ip ∧ Fresh hp s.sb.dirent m.de
  | _ => True

/-- No open descriptor leads to the inode. -/
def TfSys.Closed (s : TfSys) (ip : Nat) : Prop := ∀ n f, s.fd n = some f → s.hdl f.hdl ≠ some ip

/-- **When an operation keeps the law**: no open file is removed. -/
def TfOp.Sound (s : TfSys) : TfOp → Prop
  | .unlink rel => ∀ tgt i, tfTarget s.sb rel = some tgt → s.sb.inode tgt = some i → i.file.type ≠ .dir →
      s.Closed tgt
  | .rmdir rel => ∀ tgt i, tfTarget s.sb rel = some tgt → s.sb.inode tgt = some i → i.file.type = .dir →
      i.deCount = 0 → s.Closed tgt
  | _ => True

/-! ## 3. The invariant -/

/-- **The files and the inodes belong together**: a live inode has the number and the contents of its
    file and was not freed, a file without an inode was freed once, and every open descriptor has a
    handle of its own that leads to the inode of its file. -/
structure HandleInv (hp : Mm.HeapPool) (s : TfSys) : Prop where
  tree : NsTree hp s.sb
  root : s.who s.sb.root = 0
  known : ∀ a i, s.sb.inode a = some i → s.who a ≤ s.count ∧
    i.face = ((s.files (s.who a)).ino, (s.files (s.who a)).contents) ∧ (s.files (s.who a)).frees = 0
  apart : ∀ a a' i i', s.sb.inode a = some i → s.sb.inode a' = some i' → s.who a = s.who a' → a = a'
  below : ∀ k ≤ s.count, (s.files k).ino < s.sb.inoNext
  numbers : ∀ k ≤ s.count, ∀ k' ≤ s.count, (s.files k).ino = (s.files k').ino → k = k'
  gone : ∀ k ≤ s.count, (∃ a i, s.sb.inode a = some i ∧ s.who a = k) ∨ (s.files k).frees = 1
  opened : ∀ n f, s.fd n = some f → ∃ ip i, s.hdl f.hdl = some ip ∧ s.sb.inode ip = some i ∧ s.who ip = s.opened n
  own : ∀ n n' f f', s.fd n = some f → s.fd n' = some f' → f.hdl = f'.hdl → n = n'

section Law

variable {hp : Mm.HeapPool} {s : TfSys}

theorem NsOk.linked_of_live {sb : Sb} (h : NsOk hp sb tab ents t)
    {b : Nat} (hi : sb.inode b = some i) (hb : b ≠ sb.root) : sb.Linked i.ino := by
  obtain ⟨a, ha, n, hk, -⟩ := h.tree.ok.named ((h.tree.mem b).mpr ⟨i, hi⟩) (h.tree.root ▸ hb)
  obtain ⟨d, hd, e, j, he, -, hj, hno⟩ := h.tree.mem_kids ha hk
  obtain ⟨ai, hai⟩ := (h.tree.mem a).mp ha
  rw [Option.some.inj (hj.symm.trans hi)] at hno
  exact ⟨a, ai, ents a, hai, h.dirs.chain a ai hai, d, hd, e, he, hno⟩

theorem NsOk.live_of_linked {sb : Sb} (h : NsOk hp sb tab ents t)
    {ino : Nat} (hl : sb.Linked ino) : ∃ b i, sb.inode b = some i ∧ i.ino = ino := by
  obtain ⟨a, i, l, hi, hc, d, hd, e, he, rfl⟩ := hl
  obtain rfl := hc.unique (h.dirs.chain a i hi)
  obtain ⟨x, -, e', j, he', -, hj, hno⟩ := h.tree.mem_ents ((h.tree.mem a).mpr ⟨i, hi⟩) hd
  grind

theorem HandleInv.rootInode (h : HandleInv hp s) : ∃ i, s.sb.inode s.sb.root = some i := by
  obtain ⟨tab, ents, t, ht⟩ := h.tree
  exact ht.tree.rootInode

theorem HandleInv.live_of_inUse (h : HandleInv hp s) {k : Nat} (hk : k ≤ s.count) (hu : s.InUse k) :
    ∃ a i, s.sb.inode a = some i ∧ s.who a = k := by
  rcases hu with rfl | hl | ⟨n, f, hf, rfl⟩
  · grind [h.rootInode, h.root]
  · obtain ⟨tab, ents, t, ht⟩ := h.tree
    obtain ⟨b, i, hi, hno⟩ := ht.live_of_linked hl
    obtain ⟨hle, hface, -⟩ := h.known b i hi
    refine ⟨b, i, hi, h.numbers _ hle k hk ?_⟩
    rw [← hno]
    exact (congrArg Prod.fst hface).symm
  grind [h.opened]

theorem HandleInv.law (h : HandleInv hp s) : HandleLaw s where
  pointer := fun n f hf => by
    obtain ⟨ip, i, hh, hi, hw⟩ := h.opened n f hf
    refine ⟨ip, i, by simp only [TfSys.behind, hh, hi, bind_some, map_some], hw, ?_⟩
    rw [← hw]
    exact congrArg Prod.snd (h.known ip i hi).2.1
  inUse := fun k hk hu => by
    obtain ⟨a, i, hi, rfl⟩ := h.live_of_inUse hk hu
    exact (h.known a i hi).2.2
  unused := fun k hk hu => by
    refine (h.gone k hk).resolve_left ?_
    rintro ⟨a, i, hi, rfl⟩
    obtain ⟨tab, ents, t, ht⟩ := h.tree
    have hne : a ≠ s.sb.root := fun he => hu (.inl (he ▸ h.root))
    have hno : i.ino = (s.files (s.who a)).ino := congrArg Prod.fst (h.known a i hi).2.1
    exact hu (.inr (.inl (hno ▸ ht.linked_of_live hi hne)))

end Law

/-! ## 4. What the parts of an operation keep -/

section Parts

variable {hp : Mm.HeapPool} {s : TfSys} {sb : Sb} {ip tgt n : Nat}

section

variable (h : HandleInv hp s)
include h

theorem HandleInv.congr (ht : NsTree hp sb)
    (hface : ∀ a, (sb.inode a).map Inode.face = (s.sb.inode a).map Inode.face) (hr : sb.root = s.sb.root)
    (hn : s.sb.inoNext ≤ sb.inoNext) : HandleInv hp { s with sb := sb } where
  tree := ht
  root := by rw [hr]; exact h.root
  known := fun a i hi => by
    obtain ⟨j, hj, he⟩ := some_of_map_eq (hface a) hi
    exact he ▸ h.known a j hj
  apart := fun a a' i i' hi hi' => by
    obtain ⟨j, hj, -⟩ := some_of_map_eq (hface a) hi
    obtain ⟨j', hj', -⟩ := some_of_map_eq (hface a') hi'
    exact h.apart a a' j j' hj hj'
  below := fun k hk => Nat.lt_of_lt_of_le (h.below k hk) hn
  numbers := h.numbers
  gone := fun k hk => by
    refine (h.gone k hk).imp_left ?_
    rintro ⟨a, i, hi, hw⟩
    obtain ⟨j, hj, -⟩ := some_of_map_eq (hface a).symm hi
    exact ⟨a, j, hj, hw⟩
  opened := fun n f hf => by
    obtain ⟨ip, i, hh, hi, hw⟩ := h.opened n f hf
    obtain ⟨j, hj, -⟩ := some_of_map_eq (hface ip).symm hi
    exact ⟨ip, j, hh, hj, hw⟩
  own := h.own

theorem HandleInv.kept (hk : Kept s.sb sb) (ip : Nat) :
    s.settle ip sb = { s with sb := sb } ∧ HandleInv hp { s with sb := sb } := by
  obtain ⟨tab, ents, t, ht⟩ := h.tree
  obtain ⟨ht', hin, -⟩ := ht.kept hk
  have hrest : sb.root = s.sb.root ∧ s.sb.inoNext ≤ sb.inoNext := by
    rcases hk with rfl | rfl
    · exact ⟨rfl, Nat.le_refl _⟩
    · exact ⟨rfl, Nat.le_succ _⟩
  refine ⟨?_, h.congr ⟨tab, ents, t, ht'⟩ (fun a => by rw [hin]) hrest.1 hrest.2⟩
  grind [TfSys.settle]

theorem HandleInv.created {type : TmpfsType} (hc : Created hp s.sb sb ip type) :
    HandleInv hp (s.settle ip sb) := by
  obtain ⟨i₀, hi₀, hface₀⟩ := hc.made
  obtain ⟨hno₀, hfile₀⟩ := Prod.mk.inj hface₀
  have hset : s.settle ip sb = { s with
      sb := sb
      who := update s.who ip (s.count + 1)
      files := update s.files (s.count + 1) ⟨i₀.ino, i₀.file, 0⟩
      count := s.count + 1 } := by
    unfold TfSys.settle
    rw [hc.fresh.2, hi₀]
  have hback : ∀ a i, sb.inode a = some i →
      (a = ip ∧ i = i₀) ∨ (a ≠ ip ∧ ∃ j, s.sb.inode a = some j ∧ j.face = i.face) := by
    intro a i hi
    by_cases ha : a = ip
    · grind
    · exact .inr ⟨ha, some_of_map_eq (hc.others a ha) hi⟩
  -- what was live is at another address and stays
  have hstay : ∀ a i, s.sb.inode a = some i → a ≠ ip ∧ ∃ j, sb.inode a = some j := by
    intro a i hi
    have ha : a ≠ ip := by
      rintro rfl
      exact nomatch hc.fresh.2.symm.trans hi
    exact ⟨ha, (exists_some_congr (hc.others a ha)).mpr ⟨i, hi⟩⟩
  have hnext := hc.next
  have hbelow := h.below
  have hroot : update s.who ip (s.count + 1) sb.root = 0 := by
    obtain ⟨i, hi⟩ := h.rootInode
    rw [hc.root, update_of_ne (hstay _ i hi).1]
    exact h.root
  rw [hset]
  refine ⟨hc.tree, hroot, fun a i hi => ?_, fun a a' i i' hi hi' => ?_, fun k hk => ?_, fun k hk k' hk' => ?_, fun k hk => ?_,
    fun n f hf => ?_, h.own⟩ <;> dsimp only at *
  · rcases hback a i hi with ⟨rfl, rfl⟩ | ⟨ha, j, hj, he⟩
    · grind
    · have := h.known a j hj
      grind
  · intro he
    rcases hback a i hi with ⟨rfl, rfl⟩ | ⟨ha, j, hj, -⟩ <;> rcases hback a' i' hi' with ⟨rfl, -⟩ | ⟨ha', j', hj', -⟩
    · rfl
    · have := (h.known a' j' hj').1
      grind
    · have := (h.known a j hj).1
      grind
    · exact h.apart a a' j j' hj hj' (by grind)
  · grind
  · grind [h.numbers]
  · by_cases h1 : k = s.count + 1
    · exact .inl ⟨ip, i₀, hi₀, h1 ▸ update_self ..⟩
    grind [h.gone]
  · grind [h.opened]

theorem HandleInv.removed {i₀ : Inode} (hi₀ : s.sb.inode tgt = some i₀)
    (hR : Removed hp s.sb sb tgt) (hclosed : s.Closed tgt) : HandleInv hp (s.note tgt sb) := by
  obtain ⟨fr, hfr⟩ : ∃ fr : FileLog, fr =
    { s.files (s.who tgt) with frees := (s.files (s.who tgt)).frees + 1 } := ⟨_, rfl⟩
  have hset : s.note tgt sb = { s with sb := sb, files := update s.files (s.who tgt) fr } := by
    unfold TfSys.note
    rw [hi₀, hR.gone, hfr]
  have hback : ∀ a i, sb.inode a = some i → a ≠ tgt ∧ ∃ j, s.sb.inode a = some j ∧ j.face = i.face := by
    intro a i hi
    have ha : a ≠ tgt := by
      rintro rfl
      exact nomatch hR.gone.symm.trans hi
    exact ⟨ha, some_of_map_eq (hR.others a ha) hi⟩
  have hstay : ∀ a, a ≠ tgt → (∃ i, s.sb.inode a = some i) → ∃ j, sb.inode a = some j := fun a ha =>
    (exists_some_congr (hR.others a ha)).mpr
  have hino : ∀ k, (update s.files (s.who tgt) fr k).ino = (s.files k).ino := by grind
  have hfree := (h.known tgt i₀ hi₀).2.2
  rw [hset]
  refine ⟨hR.tree, hR.root ▸ h.root, fun a i hi => ?_, fun a a' i i' hi hi' => ?_, fun k hk => ?_, fun k hk k' hk' => ?_,
    fun k hk => ?_, fun n f hf => ?_, h.own⟩ <;> dsimp only at *
  · obtain ⟨ha, j, hj, he⟩ := hback a i hi
    rw [update_of_ne fun hw => ha (h.apart a tgt j i₀ hj hi₀ hw), ← he]
    exact h.known a j hj
  · grind [h.apart]
  · rw [hino, hR.next]
    exact h.below k hk
  · rw [hino, hino]
    exact h.numbers k hk k' hk'
  · by_cases hk' : k = s.who tgt
    · grind
    · refine (h.gone k hk).imp (fun ⟨a, i, hi, hw⟩ => ?_) fun hf => by grind
      obtain ⟨j, hj⟩ := hstay a (by grind) ⟨i, hi⟩
      exact ⟨a, j, hj, hw⟩
  · obtain ⟨a, i, hh, hi, hw⟩ := h.opened n f hf
    obtain ⟨j, hj⟩ := hstay a (fun ha => hclosed n f hf (ha ▸ hh)) ⟨i, hi⟩
    exact ⟨a, j, hh, hj, hw⟩

omit h in
/-- The contents of a file are nobody's business in the tree, as long as its type stays. -/
theorem NsTree.setFile (h : NsTree hp sb) (hi : sb.inode ip = some i) {file : TmpfsInode}
    (hty : file.type = i.file.type) :
    NsTree hp { sb with inode := update sb.inode ip (some { i with file := file }) } := by
  obtain ⟨tab, ents, t, h⟩ := h
  have hmap : ∀ {β : Type} (f : Inode → β), f { i with file := file } = f i → ∀ a,
      (update sb.inode ip (some { i with file := file }) a).map f = (sb.inode a).map f := fun f hf a =>
    map_update_of_eq hi hf a
  have hdir : ({ i with file := file } : Inode).dir = i.dir := by
    unfold Inode.dir
    rw [hty]
  refine ⟨tab, ents, t, h.ht.congr rfl (Nat.le_refl _) (hmap _ rfl), h.dirs.congr rfl fun a i' hi' => ?_,
    h.tree.congr rfl rfl (fun _ => rfl) (hmap _ rfl), fun a i' hi' hty' => ?_, h.pos⟩
  · exact some_of_map_eq (hmap Inode.dir hdir a) hi'
  grind [h.links]

theorem HandleInv.setFile (hi : s.sb.inode ip = some i) {g : TmpfsInode → TmpfsInode}
    (hty : (g i.file).type = i.file.type) : HandleInv hp (s.setFile ip i (s.who ip) g) := by
  obtain ⟨fr, hfr⟩ : ∃ fr : FileLog, fr =
    { s.files (s.who ip) with contents := g (s.files (s.who ip)).contents } := ⟨_, rfl⟩
  obtain ⟨sb, hsb⟩ : ∃ sb, sb = { s.sb with inode := update s.sb.inode ip (some { i with file := g i.file }) } := ⟨_, rfl⟩
  have hset : s.setFile ip i (s.who ip) g = { s with sb := sb, files := update s.files (s.who ip) fr } := by
    rw [hsb, hfr]
    rfl
  have hin : sb.inode = update s.sb.inode ip (some { i with file := g i.file }) := by rw [hsb]
  obtain ⟨-, hface, hfree⟩ := h.known ip i hi
  have hlive : ∀ a, (∃ j, sb.inode a = some j) ↔ ∃ j, s.sb.inode a = some j := by
    rw [hin]
    grind
  have hlog : ∀ k, (update s.files (s.who ip) fr k).ino = (s.files k).ino ∧
      (update s.files (s.who ip) fr k).frees = (s.files k).frees := by grind
  rw [hset]
  refine ⟨hsb ▸ h.tree.setFile hi hty, ?_, fun a j hj => ?_, fun a a' j j' hj hj' => ?_, fun k hk => ?_,
    fun k hk k' hk' => ?_, fun k hk => ?_, fun n f hf => ?_, h.own⟩ <;> dsimp only at *
  · rw [hsb]
    exact h.root
  · rw [(hlog _).1, (hlog _).2]
    rcases of_update_some (hin ▸ hj) with ⟨rfl, rfl⟩ | ⟨ha, hj⟩
    · refine ⟨(h.known a i hi).1, ?_, hfree⟩
      obtain ⟨h1, h2⟩ := Prod.mk.inj hface
      rw [update_self, hfr, ← h1, ← h2]
      rfl
    · rw [update_of_ne fun hw => ha (h.apart a ip j i hj hi hw)]
      exact h.known a j hj
  · obtain ⟨k, hk⟩ := (hlive a).mp ⟨j, hj⟩
    obtain ⟨k', hk'⟩ := (hlive a').mp ⟨j', hj'⟩
    exact h.apart a a' k k' hk hk'
  · rw [(hlog k).1, hsb]
    exact h.below k hk
  · grind [h.numbers]
  · rw [(hlog k).2]
    refine (h.gone k hk).imp_left fun ⟨a, j, hj, hw⟩ => ?_
    obtain ⟨j', hj'⟩ := (hlive a).mpr ⟨j, hj⟩
    exact ⟨a, j', hj', hw⟩
  · obtain ⟨a, j, hh, hj, hw⟩ := h.opened n f hf
    obtain ⟨j', hj'⟩ := (hlive a).mpr ⟨j, hj⟩
    exact ⟨a, j', hh, hj', hw⟩

theorem HandleInv.openFd (hi : s.sb.inode ip = some i) {hdl : Nat}
    (hhdl : s.hdl hdl = none) (append : Bool) : HandleInv hp (s.openFd n ip hdl append) := by
  have hcase : ∀ m f, update s.fd n (some ⟨hdl, 0, append⟩) m = some f →
      (m = n ∧ f.hdl = hdl) ∨ (m ≠ n ∧ s.fd m = some f ∧ f.hdl ≠ hdl) := by
    grind [h.opened]
  refine ⟨h.tree, h.root, h.known, h.apart, h.below, h.numbers, h.gone, fun m f hf => ?_, fun m m' f f' hf hf' he => ?_⟩
  · change ∃ a j, update s.hdl hdl (some ip) f.hdl = some a ∧ s.sb.inode a = some j ∧
      s.who a = update s.opened n (s.who ip) m
    rcases hcase m f hf with ⟨rfl, he⟩ | ⟨hm, hf, he⟩
    · grind
    grind [h.opened]
  · have := hcase m f hf
    have := hcase m' f' hf'
    grind [h.own]

theorem HandleInv.closeFd {f : VfsFd} (hf : s.fd n = some f) :
    HandleInv hp { s with fd := update s.fd n none, hdl := update s.hdl f.hdl none } := by
  have hcase : ∀ m g, update s.fd n none m = some g → m ≠ n ∧ s.fd m = some g := by
    intro m g hg
    by_cases hm : m = n
    · grind
    · grind
  refine ⟨h.tree, h.root, h.known, h.apart, h.below, h.numbers, h.gone, fun m g hg => ?_, fun m m' g g' hg hg' => ?_⟩
  · grind [h.own, h.opened]
  grind [h.own]

theorem HandleInv.setPos {f : VfsFd} (hf : s.fd n = some f) (pos : Nat) : HandleInv hp (s.setPos n f pos) := by
  have hcase : ∀ m g, update s.fd n (some { f with pos := pos }) m = some g → ∃ g', s.fd m = some g' ∧ g'.hdl = g.hdl := by
    intro m g hg
    exact some_of_map_eq (map_update_of_eq (f := VfsFd.hdl) (y := { f with pos := pos }) hf rfl m) hg
  refine ⟨h.tree, h.root, h.known, h.apart, h.below, h.numbers, h.gone, fun m g hg => ?_,
    fun m m' g g' hg hg' he => ?_⟩
  · obtain ⟨g', hg', he⟩ := hcase m g hg
    exact he ▸ h.opened m g' hg'
  · obtain ⟨k, hk, he₁⟩ := hcase m g hg
    obtain ⟨k', hk', he₂⟩ := hcase m' g' hg'
    exact h.own m m' k k' hk hk' (he₁.trans (he.trans he₂.symm))

end

end Parts

/-! ## 5. One operation -/

section Step

variable {hp : Mm.HeapPool} {s : TfSys} {sb : Sb} {n tgt : Nat}

theorem settle_sb (s : TfSys) (ip : Nat) (sb : Sb) : (s.settle ip sb).sb = sb := by
  unfold TfSys.settle
  split <;> rfl

theorem settle_hdl (s : TfSys) (ip : Nat) (sb : Sb) : (s.settle ip sb).hdl = s.hdl := by
  unfold TfSys.settle
  split <;> rfl

theorem HandleInv.behind (h : HandleInv hp s) {f : VfsFd} (hf : s.entry n = some f) :
    s.fd n = some f ∧ ∃ ip i, s.behind f = some (ip, i) ∧ s.sb.inode ip = some i ∧ s.who ip = s.opened n := by
  unfold TfSys.entry at hf
  split_ifs at hf
  obtain ⟨ip, i, hh, hi, hw⟩ := h.opened n f hf
  exact ⟨hf, ip, i, by rw [TfSys.behind, hh, Option.bind_some, hi]; rfl, hi, hw⟩

/-- What an operation leaves: no pointer to nothing was followed, the counter moved by at most one,
    and the law holds exactly if no open file was removed. -/
structure Step (hp : Mm.HeapPool) (s : TfSys) (sound : Prop) (r : TfEvent × TfSys) : Prop where
  event : r.1 ≠ .dangling
  next : r.2.sb.inoNext ≤ s.sb.inoNext + 1
  keeps : sound → HandleInv hp r.2
  needs : HandleLaw r.2 → sound

theorem Step.of_inv {r : TfEvent × TfSys} (he : r.1 ≠ .dangling) (hn : r.2.sb.inoNext ≤ s.sb.inoNext + 1)
    (h : HandleInv hp r.2) : Step hp s True r := ⟨he, hn, fun _ => h, fun _ => trivial⟩

section

variable (h : HandleInv hp s)
include h

theorem Step.same {e : TfEvent} (he : e ≠ .dangling) : Step hp s True (e, s) :=
  .of_inv he (Nat.le_succ _) h

theorem tfStep_read (len : Nat) : Step hp s True (tfStep s (.read n len)) := by
  simp only [tfStep]
  cases hf : s.entry n with
  | none => exact .same h nofun
  | some f =>
    obtain ⟨hf', ip, i, hb, -⟩ := h.behind hf
    simp only [hb]
    split_ifs
    · exact .of_inv nofun (Nat.le_succ _) (h.setPos hf' _)
    · exact .same h nofun

theorem tfStep_write (buf : Text) : Step hp s True (tfStep s (.write n buf)) := by
  simp only [tfStep]
  cases hf : s.entry n with
  | none => exact .same h nofun
  | some f =>
    obtain ⟨hf', ip, i, hb, hi, hw⟩ := h.behind hf
    have hset := h.setFile hi (g := fun file => (tmpfsFileWrite file (f.offset file) buf).2)
      (tmpfsFileWrite_type i.file _ buf)
    rw [hw] at hset
    simp only [hb]
    split_ifs
    · exact .of_inv nofun (Nat.le_succ _) (hset.setPos hf' _)
    · exact .of_inv nofun (Nat.le_succ _) hset

theorem tfStep_truncate (sz : Nat) : Step hp s True (tfStep s (.truncate n sz)) := by
  simp only [tfStep]
  cases hf : s.entry n with
  | none => exact .same h nofun
  | some f =>
    obtain ⟨-, ip, i, hb, hi, hw⟩ := h.behind hf
    have hset := h.setFile hi (g := fun file => (tmpfsFileTruncate file sz).2) (tmpfsFileTruncate_type i.file sz)
    rw [hw] at hset
    simp only [hb]
    exact .of_inv nofun (Nat.le_succ _) hset

theorem tfStep_close : Step hp s True (tfStep s (.close n)) := by
  simp only [tfStep]
  cases hf : s.entry n with
  | none => exact .same h nofun
  | some f => exact .of_inv nofun (Nat.le_succ _) (h.closeFd (h.behind hf).1)

theorem tfStep_openFile (hlt : s.sb.inoNext + 1 < 2 ^ 64) {rel : Text} {creat append : Bool}
    {m : Mem} (hg : (TfOp.openFile rel creat append m).Given hp s) :
    Step hp s True (tfStep s (.openFile rel creat append m)) := by
  obtain ⟨tab, ents, t, ht⟩ := h.tree
  obtain ⟨hip, hde, hhdl⟩ := hg
  obtain ⟨code, ip, sb, he, hle, hres⟩ := tfOpen_spec ht hip hde hlt rel creat
  -- the inode that is opened is there in the state after
  obtain ⟨hinv, hopen⟩ : HandleInv hp (s.settle m.ip sb) ∧
      (code = .ok → m.hdl ≠ 0 ∧ ∃ i, (s.settle m.ip sb).sb.inode ip = some i) := by
    rw [settle_sb]
    rcases hres with ⟨hk, hok⟩ | ⟨hc, hok⟩
    · obtain ⟨hset, hinv⟩ := h.kept hk m.ip
      rw [hset, (ht.kept hk).2.1]
      exact ⟨hinv, hok⟩
    grind [h.created, hc.made]
  simp only [tfStep, he]
  cases s.allocFd with
  | none => exact .same h nofun
  | some n =>
    dsimp only
    split_ifs with hcode
    · obtain ⟨h0, i, hi⟩ := hopen hcode
      have hfree : (s.settle m.ip sb).hdl m.hdl = none := by
        rw [settle_hdl]
        exact (hhdl.resolve_left h0).2.2
      refine .of_inv nofun ?_ (hinv.openFd hi hfree append)
      change (s.settle m.ip sb).sb.inoNext ≤ _
      rw [settle_sb]
      exact hle
    · exact .of_inv nofun (by rw [settle_sb]; exact hle) hinv

theorem tfStep_mkdir (hlt : s.sb.inoNext + 1 < 2 ^ 64) {rel : Text} {m : Mem}
    (hg : (TfOp.mkdir rel m).Given hp s) : Step hp s True (tfStep s (.mkdir rel m)) := by
  obtain ⟨tab, ents, t, ht⟩ := h.tree
  obtain ⟨code, sb, he, hle, hres⟩ := tfMkdir_spec ht hg.1 hg.2 hlt rel
  simp only [tfStep, he]
  refine .of_inv nofun (by rw [settle_sb]; exact hle) ?_
  grind [h.kept, h.created]

omit h in
/-- The handles a removal leaves lead to live inodes only if none led to what was removed. -/
theorem closed_of_law (hR : Removed hp s.sb sb tgt) (hl : HandleLaw (s.note tgt sb)) : s.Closed tgt := by
  have hparts : (s.note tgt sb).sb = sb ∧ (s.note tgt sb).hdl = s.hdl ∧ (s.note tgt sb).fd = s.fd := by
    unfold TfSys.note
    split <;> exact ⟨rfl, rfl, rfl⟩
  intro n f hf hh
  obtain ⟨ip, i, hb, -⟩ := hl.pointer n f (by rw [hparts.2.2]; exact hf)
  grind [TfSys.behind, hR.gone]

theorem Step.removed (hi : s.sb.inode tgt = some i) (hR : Removed hp s.sb sb tgt)
    {sound : Prop} (hs : sound ↔ s.Closed tgt) (code : NsCode) : Step hp s sound (.code code, s.note tgt sb) where
  event := nofun
  next := by grind [TfSys.note, hR.next]
  keeps := fun hc => h.removed hi hR (hs.mp hc)
  needs := fun hl => hs.mpr (closed_of_law hR hl)

omit h in
theorem note_same (s : TfSys) (tgt : Nat) : s.note tgt s.sb = s := by
  unfold TfSys.note
  cases s.sb.inode tgt <;> rfl

theorem Step.failed {sound : Prop} (hs : sound) (code : NsCode) (tgt : Nat) :
    Step hp s sound (.code code, s.note tgt s.sb) := by
  rw [note_same]
  exact ⟨nofun, Nat.le_succ _, fun _ => h, fun _ => hs⟩

/-- **A removal of what a path leads to** keeps the law exactly if nobody has it open. -/
theorem Removes.step {rel : Text} {P : Inode → Prop} {r : Option (NsCode × Sb)}
    (hr : Removes hp s.sb rel P r) {sound : Prop}
    (hs : sound ↔ ∀ tgt i, tfTarget s.sb rel = some tgt → s.sb.inode tgt = some i → P i → s.Closed tgt) :
    ∃ tgt code sb, tfTarget s.sb rel = some tgt ∧ r = some (code, sb) ∧ Step hp s sound (.code code, s.note tgt sb) := by
  obtain ⟨tgt, htgt, ⟨hno, code, he⟩ | ⟨i, hi, hP, sb, he, hR⟩⟩ := hr
  · refine ⟨tgt, code, _, htgt, he, .failed h (hs.2 fun tgt' i h' hi hP => ?_) code tgt⟩
    obtain rfl := Option.some.inj (htgt.symm.trans h')
    exact absurd hP (hno i hi)
  · refine ⟨tgt, .ok, sb, htgt, he, .removed h hi hR (hs.trans ⟨fun hall => hall tgt i htgt hi hP, fun hc tgt' i' h' _ _ => ?_⟩) .ok⟩
    obtain rfl := Option.some.inj (htgt.symm.trans h')
    exact hc

theorem tfStep_unlink (rel : Text) : Step hp s ((TfOp.unlink rel).Sound s) (tfStep s (.unlink rel)) := by
  obtain ⟨tab, ents, t, ht⟩ := h.tree
  obtain ⟨tgt, code, sb, htgt, he, hstep⟩ := (tfUnlink_spec ht rel).step h Iff.rfl
  simp only [tfStep, htgt, he]
  exact hstep

theorem tfStep_rmdir (rel : Text) : Step hp s ((TfOp.rmdir rel).Sound s) (tfStep s (.rmdir rel)) := by
  obtain ⟨tab, ents, t, ht⟩ := h.tree
  obtain ⟨tgt, code, sb, htgt, he, hstep⟩ := (tfRmdir_spec ht rel).step h
    (show (TfOp.rmdir rel).Sound s ↔ _ by simp only [TfOp.Sound, and_imp])
  simp only [tfStep, htgt, he]
  exact hstep

theorem tfStep_spec (hlt : s.sb.inoNext + 1 < 2 ^ 64) {op : TfOp} (hg : op.Given hp s) :
    Step hp s (op.Sound s) (tfStep s op) := by
  cases op with
  | openFile rel creat append m => exact tfStep_openFile h hlt hg
  | read n len => exact tfStep_read h len
  | write n buf => exact tfStep_write h buf
  | truncate n sz => exact tfStep_truncate h sz
  | close n => exact tfStep_close h
  | unlink rel => exact tfStep_unlink h rel
  | mkdir rel m => exact tfStep_mkdir h hlt hg
  | rmdir rel => exact tfStep_rmdir h rel

end

end Step

/-! ## 6. Runs -/

section Runs

variable {hp : Mm.HeapPool} {root : Nat}

theorem HandleInv.mount (h0 : root ≠ 0) (hpool : InPool hp root) : HandleInv hp (TfSys.mount root) := by
  have honly : ∀ a i, (TfSys.mount root).sb.inode a = some i → a = root ∧ i.face = (1, tmpfsInodeAlloc .dir) := by
    intro a i hi
    change update (fun _ => none) root _ a = some i at hi
    by_cases ha : a = root
    · subst ha
      rw [update_self] at hi
      exact ⟨rfl, Option.some.inj hi ▸ rfl⟩
    · grind
  have hzero : ∀ k ≤ (TfSys.mount root).count, k = 0 := fun k hk => Nat.le_zero.mp hk
  refine ⟨NsTree.mount h0 hpool, rfl, fun a i hi => ⟨Nat.le_refl _, (honly a i hi).2, rfl⟩,
    fun a a' i i' hi hi' _ => (honly a i hi).1.trans (honly a' i' hi').1.symm, fun k _ => ?_,
    fun k hk k' hk' _ => (hzero k hk).trans (hzero k' hk').symm, fun k hk => ?_, nofun, nofun⟩
  · change 1 < 2
    decide
  · obtain ⟨i, hi⟩ : ∃ i, (TfSys.mount root).sb.inode root = some i := ⟨_, update_self ..⟩
    exact .inl ⟨root, i, hi, (hzero k hk).symm⟩

/-- The invariant in every run that removes no open file; the counter moves by at most one a step. -/
theorem handleInv_reached (h0 : root ≠ 0) (hpool : InPool hp root) {h : Log TfOp TfEvent} {s : TfSys}
    (hr : Reach (fun s op => op.Given hp s ∧ op.Sound s) tfStep (TfSys.mount root) h s) :
    h.length + 2 < 2 ^ 64 → HandleInv hp s ∧ s.sb.inoNext ≤ h.length + 2 := by
  refine hr.inv (I := fun h s => h.length + 2 < 2 ^ 64 → HandleInv hp s ∧ s.sb.inoNext ≤ h.length + 2) ?_
    fun h s op ih hg hl => ?_
  · exact fun _ => ⟨HandleInv.mount h0 hpool, Nat.le_refl _⟩
  · rw [List.length_cons] at hl ⊢
    obtain ⟨h1, h2⟩ := ih (by omega)
    have hstep := tfStep_spec h1 (by omega) hg.1
    grind [hstep.next, hstep.keeps]

/-- **Open handles stay valid exactly as long as no open file is removed**: in every run of fewer than
    2^64 - 3 operations that removes none, the law holds in the state reached, the next operation
    follows no pointer to nothing, and the law holds after it exactly if it removes no open file. -/
theorem tmpfs_handles_iff (h0 : root ≠ 0) (hpool : InPool hp root) {h : Log TfOp TfEvent} {s : TfSys}
    (hr : Reach (fun s op => op.Given hp s ∧ op.Sound s) tfStep (TfSys.mount root) h s) (hlen : h.length + 3 < 2 ^ 64)
    {op : TfOp} (hg : op.Given hp s) :
    HandleLaw s ∧ (tfStep s op).1 ≠ .dangling ∧ (HandleLaw (tfStep s op).2 ↔ op.Sound s) := by
  obtain ⟨hinv, hnext⟩ := handleInv_reached h0 hpool hr (by omega)
  have hstep := tfStep_spec hinv (by omega) hg
  exact ⟨hinv.law, hstep.event, hstep.needs, fun hs => (hstep.keeps hs).law⟩

end Runs

/-! ## 7. A file is removed while it is open -/

/-- The state after `a` was created and opened. -/
def oneOpen : TfSys := (tfStep (TfSys.mount 0x200000) (.openFile [0x61] true false mem₁)).2

theorem oneOpen_given : (TfOp.openFile [0x61] true false mem₁).Given somePool (TfSys.mount 0x200000) :=
  ⟨.inr ⟨by decide, ⟨by decide, by decide⟩, rfl⟩, .inr ⟨by decide, ⟨by decide, by decide⟩, rfl⟩,
    .inr ⟨by decide, ⟨by decide, by decide⟩, rfl⟩⟩

theorem oneOpen_reached : Reach (fun s op => op.Given somePool s ∧ op.Sound s) tfStep (TfSys.mount 0x200000)
    [(.openFile [0x61] true false mem₁, .opened 0)] oneOpen :=
  Reach.start.eval ⟨oneOpen_given, trivial⟩ (by decide +kernel)

theorem tmpfs_handles_closed : HandleLaw oneOpen ∧ HandleLaw (tfStep oneOpen (.close 0)).2 := by
  have hg : (TfOp.close 0).Given somePool oneOpen := trivial
  obtain ⟨h1, -, h2⟩ := tmpfs_handles_iff (by decide) ⟨by decide, by decide⟩ oneOpen_reached (by decide) hg
  exact ⟨h1, h2.mpr trivial⟩

/-- **`unlink` frees a file that is open**: after `open a` and `unlink a` the descriptor's handle
    points to a freed inode, and a read, a write and a truncation through it follow that pointer. -/
theorem tmpfs_handles_dangling :
    ∃ h s, Reach (fun s op => op.Given somePool s) tfStep (TfSys.mount 0x200000) h s ∧
      h.map Prod.fst = [.unlink [0x61], .openFile [0x61] true false mem₁] ∧
      (∃ f ip, s.fd 0 = some f ∧ s.hdl f.hdl = some ip ∧ s.sb.inode ip = none) ∧ ¬ HandleLaw s ∧
      ∀ op ∈ [TfOp.read 0 1, .write 0 [0x78], .truncate 0 0], (tfStep s op).1 = .dangling := by
  have hr := (oneOpen_reached.mono fun _ _ h => h.1).eval (i := .unlink [0x61]) (o := .code .ok) trivial
    (by decide +kernel)
  have hfd : (tfStep oneOpen (.unlink [0x61])).2.fd 0 = some ⟨0x201000, 0, false⟩ := by decide +kernel
  have hhdl : (tfStep oneOpen (.unlink [0x61])).2.hdl 0x201000 = some 0x201000 := by decide +kernel
  have hgone : ((tfStep oneOpen (.unlink [0x61])).2.sb.inode 0x201000).isNone = true := by decide +kernel
  have hops : ∀ op ∈ [TfOp.read 0 1, .write 0 [0x78], .truncate 0 0],
      (tfStep (tfStep oneOpen (.unlink [0x61])).2 op).1 = .dangling := by decide +kernel
  generalize (tfStep oneOpen (.unlink [0x61])).2 = s at *
  refine ⟨_, s, hr, rfl, ⟨_, _, hfd, hhdl, isNone_iff_eq_none.mp hgone⟩, fun hl => ?_, hops⟩
  obtain ⟨ip, i, hb, -⟩ := hl.pointer 0 _ hfd
  rw [TfSys.behind, hhdl, bind_some, isNone_iff_eq_none.mp hgone] at hb
  exact nomatch hb

end Kobalt.Tmpfs
