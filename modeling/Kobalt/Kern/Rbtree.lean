/-
  Subject: THE RED-BLACK TREE OF THE KERNEL (`kern/rbtree.c`): nodes in memory with the colour in
  the lowest bit of the parent pointer, and that every history of insertions and erasures keeps them
  a red-black tree in order.

  Nodes are addresses; address 0 is the null pointer, and reading or writing through it makes a
  call answer `none`. A call whose loop runs out of its fuel answers `none` as well, so that an
  answer `some` says: the call came to its end and went through no null pointer.

  The branches of the source for the left and for the right side mirror each other word for word;
  they are one definition with the side as a parameter.
-/
import Kobalt.Lib.Run
import Kobalt.Lib.RbTree

namespace Kobalt.Kern

open Kobalt.Rb Function List Option

variable {fuel : Nat}

/-! ## 1. The code -/

/-- `struct rb_node`. -/
structure RbNode where
  pc : Nat := 0
  left : Nat := 0
  right : Nat := 0
  deriving DecidableEq, Repr

variable {x : Nat × RbNode}

namespace RbNode

/-- `rb_parent`: `__pc & ~1UL`. -/
def parent (n : RbNode) : Nat := n.pc - (n.pc &&& 1)

/-- `rb_is_black`. -/
def isBlack (n : RbNode) : Bool := n.pc &&& 1 != 0

/-- `rb_is_red`. -/
def isRed (n : RbNode) : Bool := !n.isBlack

def setBlack (n : RbNode) : RbNode := { n with pc := n.pc ||| 1 }

def setRed (n : RbNode) : RbNode := { n with pc := n.pc - (n.pc &&& 1) }

def setParent (p : Nat) (n : RbNode) : RbNode := { n with pc := (n.pc &&& 1) ||| p }

/-- `n->__pc = (n->__pc & ~1UL) | (m->__pc & 1)`. -/
def setColorOf (m n : RbNode) : RbNode := { n with pc := (n.pc - (n.pc &&& 1)) ||| (m.pc &&& 1) }

def child (n : RbNode) : Dir → Nat
  | .left => n.left
  | .right => n.right

def setChild (d : Dir) (v : Nat) (n : RbNode) : RbNode :=
  match d with
  | .left => { n with left := v }
  | .right => { n with right := v }

end RbNode

/-- The memory of the nodes and one `rb_root_t`. -/
structure RbHeap where
  node : Nat → RbNode
  root : Nat

namespace RbHeap

variable (s : RbHeap) (p : Nat)

def load : Option RbNode := if p = 0 then none else some (s.node p)

/-- A write through `p`. -/
def modify (f : RbNode → RbNode) : Option RbHeap :=
  if p = 0 then none else some { s with node := update s.node p (f (s.node p)) }

/-- `p && rb_is_red(p)`. -/
def redAt : Bool := p != 0 && (s.node p).isRed

/-- `!p || rb_is_black(p)`. -/
def blackAt : Bool := p == 0 || (s.node p).isBlack

/-- `if (p) ...`, a write that is left out for the null pointer. -/
def modifyIf (f : RbNode → RbNode) : Option RbHeap :=
  if p = 0 then some s else s.modify p f

end RbHeap

section Code

variable (d : Dir) (s : RbHeap)

/-- The end of a rotation and the beginning of `transplant`: the place that held `x` gets `y`. -/
def relink (xp x y : Nat) : Option RbHeap :=
  if xp = 0 then some { s with root := y } else do
    if (← s.load xp).child d = x then s.modify xp (.setChild d y)
    else s.modify xp (.setChild d.opp y)

/-- `rotate_left` and `rotate_right`. -/
def rotate (x : Nat) : Option RbHeap := do
  let y := (← s.load x).child d.opp
  let yl := (← s.load y).child d
  let xp := (← s.load x).parent
  let s ← s.modify y (.setChild d x)
  let s ← s.modify x (.setChild d.opp yl)
  let s ← s.modifyIf yl (.setParent x)
  let s ← s.modify x (.setParent y)
  let s ← s.modify y (.setParent xp)
  relink d s xp x y

def rotateLeft : RbHeap → Nat → Option RbHeap := rotate .left

def rotateRight : RbHeap → Nat → Option RbHeap := rotate .right

/-- `insert_fixup`, the new node `z` on the inner side of its parent `p`: it is rotated outwards. The
    answer has the new `p` and `g`. -/
def innerInsert (z p g : Nat) : Option (RbHeap × Nat × Nat) := do
  if z = (← s.load p).child d.opp then
    let s ← rotate d s p
    let z := p
    let p := (← s.load z).parent
    let g := (← s.load p).parent
    some (s, p, g)
  else some (s, p, g)

/-- `insert_fixup`, the last rotation. -/
def outerInsert (p g : Nat) : Option RbHeap := do
  let s ← s.modify p .setBlack
  let s ← s.modify g .setRed
  rotate d.opp s g

def insertFixup : Nat → RbHeap → Nat → Option RbHeap
  | 0, _, _ => none
  | fuel + 1, s, z => do
    let p := (← s.load z).parent
    if p = 0 then s.modify s.root .setBlack
    else if (← s.load p).isBlack then s.modify s.root .setBlack
    else
      let g := (← s.load p).parent
      if g = 0 then s.modify s.root .setBlack
      else
        let d := if p = (← s.load g).left then Dir.left else Dir.right
        let u := (← s.load g).child d.opp
        if s.redAt u then
          let s ← s.modify p .setBlack
          let s ← s.modify u .setBlack
          let s ← s.modify g .setRed
          insertFixup fuel s g
        else
          let (s, p, g) ← innerInsert d s z p g
          let s ← outerInsert d s p g
          s.modify s.root .setBlack

/-- The descent of `rb_insert`: the node whose null pointer on the given side takes the new node;
    0 for the root. -/
def rbLink (cmp : Nat → Nat → Int) (node : Nat) : Nat → RbHeap → Nat → Nat → Dir → Option (Nat × Dir)
  | 0, _, _, _, _ => none
  | fuel + 1, s, cur, parent, d =>
    if cur = 0 then some (parent, d) else do
      let d := if cmp node cur < 0 then Dir.left else Dir.right
      rbLink cmp node fuel s ((← s.load cur).child d) cur d

def rbInsert (fuel : Nat) (cmp : Nat → Nat → Int) (s : RbHeap) (node : Nat) : Option RbHeap := do
  let (parent, d) ← rbLink cmp node fuel s s.root 0 .left
  let s ← s.modify node fun _ => ⟨parent, 0, 0⟩
  let s ← if parent = 0 then some { s with root := node } else s.modify parent (.setChild d node)
  insertFixup fuel s node

def transplant (u v : Nat) : Option RbHeap := do
  let up := (← s.load u).parent
  let s ← relink .left s up u v
  s.modifyIf v (.setParent up)

/-- `delete_fixup`, a red sibling: it is rotated away. The answer has the new sibling. -/
def redSibling (xp w : Nat) : Option (RbHeap × Nat) := do
  if (← s.load w).isRed then
    let s ← s.modify w .setBlack
    let s ← s.modify xp .setRed
    let s ← rotate d s xp
    some (s, (← s.load xp).child d.opp)
  else some (s, w)

/-- `delete_fixup`, a black outer nephew: the inner one is rotated outwards. -/
def innerNephew (xp w : Nat) : Option (RbHeap × Nat) := do
  if s.blackAt ((← s.load w).child d.opp) then
    let s ← s.modifyIf ((← s.load w).child d) .setBlack
    let s ← s.modify w .setRed
    let s ← rotate d.opp s w
    some (s, (← s.load xp).child d.opp)
  else some (s, w)

/-- `delete_fixup`, a red outer nephew: the last rotation. -/
def outerNephew (xp w : Nat) : Option RbHeap := do
  let n ← s.load xp
  let s ← s.modify w (.setColorOf n)
  let s ← s.modify xp .setBlack
  let s ← s.modifyIf ((← s.load w).child d.opp) .setBlack
  rotate d s xp

def deleteFixup : Nat → RbHeap → Nat → Nat → Option RbHeap
  | 0, _, _, _ => none
  | fuel + 1, s, x, xp =>
    if x ≠ s.root ∧ s.blackAt x = true then do
      let d := if x = (← s.load xp).left then Dir.left else Dir.right
      let (s, w) ← redSibling d s xp ((← s.load xp).child d.opp)
      let n ← s.load w
      if s.blackAt (n.child d) && s.blackAt (n.child d.opp) then
        let s ← s.modify w .setRed
        deleteFixup fuel s xp (← s.load xp).parent
      else
        let (s, w) ← innerNephew d s xp w
        let s ← outerNephew d s xp w
        deleteFixup fuel s s.root 0
    else s.modifyIf x .setBlack

/-- `while (y->left) y = y->left`. -/
def leftmost : Nat → RbHeap → Nat → Option Nat
  | 0, _, _ => none
  | fuel + 1, s, y => do
    let l := (← s.load y).left
    if l = 0 then some y else leftmost fuel s l

/-- `rb_erase`, two children: the successor `y` of `z` leaves its place, unless it is the child of
    `z`. The answer has the parent of its former child. -/
def detach (z y : Nat) : Option (RbHeap × Nat) := do
  if (← s.load y).parent = z then some (s, y)
  else
    let xp := (← s.load y).parent
    let s ← transplant s y (← s.load y).right
    let r := (← s.load z).right
    let s ← s.modify y (.setChild .right r)
    let s ← s.modify r (.setParent y)
    some (s, xp)

/-- `rb_erase`, two children: `y` takes the place of `z`. -/
def takeOver (z y : Nat) : Option RbHeap := do
  let s ← transplant s z y
  let l := (← s.load z).left
  let s ← s.modify y (.setChild .left l)
  let s ← s.modify l (.setParent y)
  let n ← s.load z
  s.modify y (.setColorOf n)

/-- The part of `rb_erase` for a node with two children. The answer has the colour of the
    successor, its former child and the parent of that. -/
def eraseInner (fuel : Nat) (s : RbHeap) (z : Nat) : Option (RbHeap × Bool × Nat × Nat) := do
  let y ← leftmost fuel s (← s.load z).right
  let n ← s.load y
  let (s, xp) ← detach s z y
  let s ← takeOver s z y
  some (s, n.isBlack, n.right, xp)

/-- The part of `rb_erase` for a node with one child at most, on side `d`. -/
def eraseOuter (z : Nat) : Option (RbHeap × Bool × Nat × Nat) := do
  let n ← s.load z
  let s ← transplant s z (n.child d)
  some (s, n.isBlack, n.child d, n.parent)

def rbErase (fuel : Nat) (s : RbHeap) (z : Nat) : Option RbHeap := do
  let n ← s.load z
  let (s, origBlack, x, xp) ←
    if n.left = 0 then eraseOuter .right s z
    else if n.right = 0 then eraseOuter .left s z
    else eraseInner fuel s z
  if origBlack then deleteFixup fuel s x xp else some s

def rbFirst (fuel : Nat) (s : RbHeap) : Option Nat :=
  if s.root = 0 then some 0 else leftmost fuel s s.root

/-- `while (p && n == p->right) { n = p; p = rb_parent(n); }`. -/
def climb : Nat → RbHeap → Nat → Nat → Option Nat
  | 0, _, _, _ => none
  | fuel + 1, s, n, p =>
    if p = 0 then some 0 else do
      let m ← s.load p
      if n = m.right then climb fuel s p m.parent else some p

def rbNext (fuel : Nat) (s : RbHeap) (n : Nat) : Option Nat := do
  let m ← s.load n
  if m.right ≠ 0 then leftmost fuel s m.right else climb fuel s n m.parent

end Code

/-! ## 2. Cells -/

/-- The bit of a colour. -/
def bit : Color → Nat
  | .red => 0
  | .black => 1

/-- The record of a node with parent `q`, colour `c` and the child `h` on side `d`. -/
def cellOf (d : Dir) (q : Nat) (c : Color) (h o : Nat) : RbNode :=
  match d with
  | .left => ⟨q + bit c, h, o⟩
  | .right => ⟨q + bit c, o, h⟩

section Cells

variable {d : Dir} {q q' h o v : Nat} {c c' : Color}

@[simp] theorem cellOf_pc : (cellOf d q c h o).pc = q + bit c := by cases d <;> rfl

@[simp] theorem cellOf_child : (cellOf d q c h o).child d = h := by cases d <;> rfl

@[simp] theorem cellOf_child_opp : (cellOf d q c h o).child d.opp = o := by cases d <;> rfl

@[simp] theorem cellOf_setChild : (cellOf d q c h o).setChild d v = cellOf d q c v o := by
  cases d <;> rfl

@[simp] theorem cellOf_setChild_opp : (cellOf d q c h o).setChild d.opp v = cellOf d q c h v := by
  cases d <;> rfl

theorem cellOf_left : (cellOf .left q c h o).left = h := rfl

theorem cellOf_right : (cellOf .left q c h o).right = o := rfl

section

variable (hq : q % 2 = 0)
include hq

theorem and_one_add_bit : (q + bit c) &&& 1 = bit c := by
  rw [Nat.and_one_is_mod]
  cases c <;> simp only [bit] <;> omega

theorem even_or_bit : q ||| bit c = q + bit c := by
  obtain ⟨k, rfl⟩ : ∃ k, q = 2 ^ 1 * k := ⟨q / 2, by omega⟩
  exact (Nat.two_pow_add_eq_or_of_lt (by cases c <;> decide) k).symm

theorem cellOf_parent : (cellOf d q c h o).parent = q := by
  unfold RbNode.parent
  rw [cellOf_pc, and_one_add_bit hq]
  omega

theorem cellOf_isBlack : (cellOf d q c h o).isBlack = decide (c = .black) := by
  unfold RbNode.isBlack
  rw [cellOf_pc, and_one_add_bit hq]
  cases c <;> rfl

theorem cellOf_isRed : (cellOf d q c h o).isRed = decide (c = .red) := by
  unfold RbNode.isRed
  rw [cellOf_isBlack hq]
  cases c <;> rfl

omit hq in
theorem cellOf_setPc (x : Nat) : { cellOf d q c h o with pc := x + bit c' } = cellOf d x c' h o := by
  cases d <;> rfl

theorem cellOf_setBlack : (cellOf d q c h o).setBlack = cellOf d q .black h o := by
  have e : (q + bit c) ||| 1 = q + bit .black := by
    rw [← even_or_bit hq, Nat.or_assoc, ← even_or_bit hq]
    cases c <;> rfl
  unfold RbNode.setBlack
  rw [cellOf_pc, e, cellOf_setPc]

theorem cellOf_setRed : (cellOf d q c h o).setRed = cellOf d q .red h o := by
  have e : q + bit c - ((q + bit c) &&& 1) = q + bit .red := by
    rw [and_one_add_bit hq]
    simp only [bit]
    omega
  unfold RbNode.setRed
  rw [cellOf_pc, e, cellOf_setPc]

theorem cellOf_setParent (hq' : q' % 2 = 0) : (cellOf d q c h o).setParent q' = cellOf d q' c h o := by
  grind [RbNode.setParent, cellOf_pc, and_one_add_bit, even_or_bit, cellOf_setPc]

theorem cellOf_setColorOf {d' : Dir} {r h' o' : Nat} (hr : r % 2 = 0) :
    RbNode.setColorOf (cellOf d' r c' h' o') (cellOf d q c h o) = cellOf d q c' h o := by
  have e : q + bit c - ((q + bit c) &&& 1) = q := by
    rw [and_one_add_bit hq]
    omega
  unfold RbNode.setColorOf
  rw [cellOf_pc, cellOf_pc, e, and_one_add_bit hr, even_or_bit hq, cellOf_setPc]

end

end Cells

/-! ## 3. Trees in memory -/

/-- The address of the root of a tree, 0 for the empty one. -/
def ptr : Rbt Nat → Nat
  | .nil => 0
  | .node _ _ a _ => a

/-- What the memory holds of a tree under the parent `q`. -/
def cells (q : Nat) : Rbt Nat → List (Nat × RbNode)
  | .nil => []
  | .node c l a r => (a, ⟨q + bit c, ptr l, ptr r⟩) :: (cells a l ++ cells a r)

/-- The node a path ends at. -/
def top : Path Nat → Nat
  | [] => 0
  | f :: _ => f.key

/-- The address of the root of the whole tree. -/
def rootPtr : Path Nat → Nat → Nat
  | [], h => h
  | f :: p, _ => rootPtr p f.key

/-- What the memory holds of a path whose hole is filled by the node at `h`. -/
def pathCells : Path Nat → Nat → List (Nat × RbNode)
  | [], _ => []
  | f :: p, h => (f.key, cellOf f.dir (top p) f.color h (ptr f.other)) ::
      (cells f.key f.other ++ pathCells p f.key)

/-- **The memory holds the tree `t` at the end of the path `p`.** -/
structure At (s : RbHeap) (p : Path Nat) (t : Rbt Nat) : Prop where
  root : s.root = rootPtr p (ptr t)
  sub : ∀ q ∈ cells (top p) t, s.node q.1 = q.2
  path : ∀ q ∈ pathCells p (ptr t), s.node q.1 = q.2
  nodup : (inorder t ++ pathKeys p).Nodup
  addr : ∀ a ∈ inorder t ++ pathKeys p, a ≠ 0 ∧ a % 2 = 0

section Trees

variable {d : Dir} {c : Color} {a q h : Nat} {t o : Rbt Nat} {p : Path Nat}

@[simp] theorem ptr_mk : ptr (Rbt.mk d c a t o) = a := by cases d <;> rfl

theorem mem_cells_mk : x ∈ cells q (Rbt.mk d c a t o) ↔
    x = (a, cellOf d q c (ptr t) (ptr o)) ∨ x ∈ cells a t ∨ x ∈ cells a o := by
  cases d <;> simp only [Rbt.mk, cells, cellOf, mem_cons, mem_append]
  tauto

theorem mem_pathCells_cons {f : Frame Nat} : x ∈ pathCells (f :: p) h ↔
    x = (f.key, cellOf f.dir (top p) f.color h (ptr f.other)) ∨ x ∈ cells f.key f.other ∨
      x ∈ pathCells p f.key := by
  simp only [pathCells, mem_cons, mem_append]

theorem fst_mem_of_cells (hx : x ∈ cells q t) : x.1 ∈ inorder t := by
  induction t generalizing q with
  | nil => cases hx
  | node c l a r ihl ihr => grind [cells, inorder]

theorem fst_mem_of_pathCells (hx : x ∈ pathCells p h) : x.1 ∈ pathKeys p := by
  induction p generalizing h with
  | nil => cases hx
  | cons f p ih => grind [mem_pathCells_cons, pathKeys, fst_mem_of_cells]

theorem ptr_mem (h : ptr t ≠ 0) : ptr t ∈ inorder t := by
  cases t with
  | nil => exact absurd rfl h
  | node c l a r => simp [inorder, ptr]

end Trees

section At

variable {s s' : RbHeap} {p : Path Nat} {t t' : Rbt Nat} {f : Frame Nat}

theorem at_cons : At s (f :: p) t ↔ At s p (f.fill t) := by
  have hperm : (inorder (f.fill t) ++ pathKeys p).Perm (inorder t ++ pathKeys (f :: p)) := by
    refine ((inorder_mk_perm ..).append_right _).trans ?_
    simp [pathKeys]
  have hptr : ptr (f.fill t) = f.key := ptr_mk
  constructor
  · intro h
    refine ⟨h.root.trans (by rw [hptr]; rfl), fun q hq => ?_, fun q hq => ?_, hperm.nodup_iff.2 h.nodup,
      fun a ha => h.addr a (hperm.mem_iff.1 ha)⟩
    · rcases mem_cells_mk.1 hq with rfl | hq | hq
      · exact h.path _ (mem_pathCells_cons.2 (.inl rfl))
      · exact h.sub q hq
      · exact h.path q (mem_pathCells_cons.2 (.inr (.inl hq)))
    · rw [hptr] at hq
      exact h.path q (mem_pathCells_cons.2 (.inr (.inr hq)))
  · intro h
    refine ⟨h.root.trans (by rw [hptr]; rfl), fun q hq => ?_, fun q hq => ?_, hperm.nodup_iff.1 h.nodup,
      fun a ha => h.addr a (hperm.mem_iff.2 ha)⟩
    · exact h.sub q (mem_cells_mk.2 (.inr (.inl hq)))
    · rcases mem_pathCells_cons.1 hq with rfl | hq | hq
      · exact h.sub _ (mem_cells_mk.2 (.inl rfl))
      · exact h.sub q (mem_cells_mk.2 (.inr (.inr hq)))
      · exact h.path q (by rw [hptr]; exact hq)

theorem at_plug : At s p t ↔ At s [] (plug p t) := by
  induction p generalizing t with
  | nil => exact Iff.rfl
  | cons f p ih => exact at_cons.trans ih

theorem At.top_even (h : At s p t) : top p % 2 = 0 := by
  cases p with
  | nil => rfl
  | cons f p => exact (h.addr f.key (by simp [pathKeys])).2

theorem At.ok (h : At s p t) : ∀ b ∈ inorder t, b ≠ 0 ∧ b % 2 = 0 := fun b hb => h.addr b (mem_append.2 (.inl hb))

theorem At.path_ok (h : At s p t) : ∀ b ∈ pathKeys p, b ≠ 0 := fun b hb => (h.addr b (mem_append.2 (.inr hb))).1

theorem At.above_ne (h : At s (f :: p) t) : f.key ≠ 0 := h.path_ok _ (by simp [pathKeys])

theorem At.disj (h : At s p t) : ∀ b ∈ inorder t, b ∉ pathKeys p :=
  fun b hb hp => (nodup_append.1 h.nodup).2.2 b hb b hp rfl

section Node

variable {d : Dir} {c : Color} {a : Nat} {o : Rbt Nat}

section

variable (h : At s p (Rbt.mk d c a t o))
include h

theorem At.node : s.node a = cellOf d (top p) c (ptr t) (ptr o) :=
  h.sub _ (mem_cells_mk.2 (.inl rfl))

theorem At.key_ok : a ≠ 0 ∧ a % 2 = 0 := h.ok a (mem_inorder_mk.2 (.inl rfl))

theorem At.down : At s (⟨d, c, a, o⟩ :: p) t := at_cons.2 h

theorem At.down_opp : At s (⟨d.opp, c, a, t⟩ :: p) o := by
  rw [at_cons]
  show At s p (Rbt.mk d.opp c a o t)
  rw [Rbt.mk_opp]
  exact h

end

theorem At.ptr_eq_zero (h : At s p t) : ptr t = 0 ↔ t = .nil := by
  refine ⟨fun h0 => ?_, fun e => by rw [e]; rfl⟩
  by_contra hne
  obtain ⟨c, b, l, r, rfl⟩ := Rbt.exists_mk .left hne
  rw [ptr_mk] at h0
  exact h.key_ok.1 h0

end Node

theorem At.above (h : At s (f :: p) t) : s.node f.key = cellOf f.dir (top p) f.color (ptr t) (ptr f.other) :=
  h.path _ (mem_pathCells_cons.2 (.inl rfl))

theorem At.replaceSame (h : At s p t) (hsub : ∀ q ∈ cells (top p) t', s'.node q.1 = q.2)
    (hptr : ptr t' = ptr t) (hroot : s'.root = s.root)
    (hrest : ∀ a ∈ pathKeys p, s'.node a = s.node a) (hperm : (inorder t').Perm (inorder t)) : At s' p t' := by
  have hp := hperm.append_right (pathKeys p)
  refine ⟨by rw [hroot, h.root, hptr], hsub, fun q hq => ?_, hp.nodup_iff.2 h.nodup,
    fun a ha => h.addr a (hp.mem_iff.1 ha)⟩
  grind [fst_mem_of_pathCells, h.path]

end At

/-! ## 4. Writes -/

/-- A write through a pointer that is not null. -/
def RbHeap.upd (s : RbHeap) (p : Nat) (f : RbNode → RbNode) : RbHeap :=
  { s with node := update s.node p (f (s.node p)) }

/-- A write that is left out for the null pointer. -/
def RbHeap.updIf (s : RbHeap) (p : Nat) (f : RbNode → RbNode) : RbHeap :=
  if p = 0 then s else s.upd p f

/-- The place at the end of the path gets the address `v`. -/
def linkAt (p : Path Nat) (s : RbHeap) (v : Nat) : RbHeap :=
  match p with
  | [] => { s with root := v }
  | f :: _ => s.upd f.key (.setChild f.dir v)

/-- Nothing outside `K` was written. -/
def Same (K : List Nat) (s s' : RbHeap) : Prop := ∀ a, a ∉ K → s'.node a = s.node a

section Writes

variable {s s' : RbHeap} {a b : Nat} {f : RbNode → RbNode} {K : List Nat}

theorem load_of_ne (h : a ≠ 0) : s.load a = some (s.node a) := if_neg h

theorem modify_of_ne (h : a ≠ 0) : s.modify a f = some (s.upd a f) := if_neg h

theorem modifyIf_eq : s.modifyIf a f = some (s.updIf a f) := by grind [RbHeap.modifyIf, RbHeap.updIf, modify_of_ne]

@[simp] theorem upd_root : (s.upd a f).root = s.root := rfl

@[simp] theorem upd_self : (s.upd a f).node a = f (s.node a) := update_self ..

theorem upd_of_ne (h : b ≠ a) : (s.upd a f).node b = s.node b := update_of_ne h ..

@[simp] theorem updIf_root : (s.updIf a f).root = s.root := by
  unfold RbHeap.updIf
  split <;> rfl

theorem updIf_self (h : a ≠ 0) : (s.updIf a f).node a = f (s.node a) := by
  unfold RbHeap.updIf
  rw [if_neg h, upd_self]

theorem updIf_of_ne (h : b ≠ a) : (s.updIf a f).node b = s.node b := by grind [RbHeap.updIf, upd_of_ne]

theorem Same.refl (K : List Nat) (s : RbHeap) : Same K s s := fun _ _ => rfl

theorem Same.trans {s'' : RbHeap} (h : Same K s s') (h' : Same K s' s'') : Same K s s'' :=
  fun a ha => (h' a ha).trans (h a ha)

theorem Same.upd (h : Same K s s') (ha : a ∈ K) : Same K s (s'.upd a f) :=
  fun b hb => (upd_of_ne fun e : b = a => hb (e ▸ ha)).trans (h b hb)

theorem Same.updIf (h : Same K s s') (ha : a ≠ 0 → a ∈ K) : Same K s (s'.updIf a f) := by
  grind [RbHeap.updIf, h.upd]

theorem Same.mono {K' : List Nat} (h : Same K s s') (hK : ∀ a ∈ K, a ∈ K') : Same K' s s' :=
  fun a ha => h a fun hm => ha (hK a hm)

end Writes

section Steps

variable {s s1 : RbHeap} {p : Path Nat} {t t' A B C : Rbt Nat} {d : Dir} {c c' : Color}
  {x y a v : Nat}

theorem recolor_at (h : At s p (Rbt.mk d c a A B)) {f : RbNode → RbNode}
    (hf : f (s.node a) = cellOf d (top p) c' (ptr A) (ptr B)) : At (s.upd a f) p (Rbt.mk d c' a A B) := by
  have hnd := nodup_append.1 h.nodup
  have hmk := nodup_mk.1 hnd.1
  refine h.replaceSame (fun q hq => ?_) (by simp) rfl (fun b hb => ?_) ?_
  · rcases mem_cells_mk.1 hq with rfl | hq | hq
    · exact upd_self.trans hf
    · rw [upd_of_ne fun e : q.1 = a => hmk.1 (e ▸ fst_mem_of_cells hq)]
      exact h.down.sub q hq
    · rw [upd_of_ne fun e : q.1 = a => hmk.2.1 (e ▸ fst_mem_of_cells hq)]
      exact h.down_opp.sub q hq
  · exact upd_of_ne fun e => hnd.2.2 a (mem_inorder_mk.2 (.inl rfl)) b hb e.symm
  grind [inorder_mk_congr]

theorem linkAt_of_not_mem (hv : a ∉ pathKeys p) : (linkAt p s v).node a = s.node a := by
  cases p with
  | nil => rfl
  | cons f p => exact upd_of_ne fun e => hv (by simp [pathKeys, e])

theorem relink_eq (h : At s p t) (ht : ptr t ≠ 0) (hs : ∀ b ∈ pathKeys p, s1.node b = s.node b) :
    relink d s1 (top p) (ptr t) v = some (linkAt p s1 v) := by
  cases p with
  | nil => rfl
  | cons f p =>
    have hk : f.key ∈ pathKeys (f :: p) := by simp [pathKeys]
    have hk0 := h.above_ne
    have hother : ptr f.other ≠ ptr t := by
      intro e
      rw [← e] at ht
      refine h.disj _ (e ▸ ptr_mem (e ▸ ht)) ?_
      simp [pathKeys, ptr_mem ht]
    unfold relink
    rw [show top (f :: p) = f.key from rfl, if_neg hk0, load_of_ne hk0, hs _ hk, h.above]
    show (if _ then _ else _) = _
    by_cases hd : d = f.dir
    · rw [if_pos (by rw [hd, cellOf_child]), modify_of_ne hk0, hd]
      rfl
    · have hd' : d = f.dir.opp := by
        revert hd
        cases d <;> cases f.dir <;> simp [Dir.opp]
      rw [if_neg (by rw [hd', cellOf_child_opp]; exact hother), modify_of_ne hk0, hd', Dir.opp_opp]
      rfl

theorem linkAt_congr (hroot : s1.root = s.root) (hs : ∀ b ∈ pathKeys p, s1.node b = s.node b) :
    (linkAt p s1 v).root = (linkAt p s v).root ∧ ∀ b ∈ pathKeys p, (linkAt p s1 v).node b = (linkAt p s v).node b := by
  cases p with
  | nil => exact ⟨rfl, hs⟩
  | cons f p =>
    refine ⟨hroot, fun b hb => ?_⟩
    show update s1.node _ _ b = update s.node _ _ b
    rw [update_apply, update_apply, hs b hb, hs _ (mem_cons_self ..)]

/-- **Another tree in the place of the focus**, with the pointer above it changed. -/
theorem At.replace {s' : RbHeap} (h : At s p t) (hroot : s'.root = (linkAt p s (ptr t')).root)
    (hs : ∀ b ∈ pathKeys p, s'.node b = (linkAt p s (ptr t')).node b)
    (hsub : ∀ q ∈ cells (top p) t', s'.node q.1 = q.2) (hnodup : (inorder t' ++ pathKeys p).Nodup)
    (haddr : ∀ a ∈ inorder t' ++ pathKeys p, a ≠ 0 ∧ a % 2 = 0) : At s' p t' := by
  cases p with
  | nil => exact ⟨hroot, hsub, nofun, hnodup, haddr⟩
  | cons f p =>
    refine ⟨hroot.trans h.root, hsub, fun q hq => ?_, hnodup, haddr⟩
    have hnd : (f.key :: (inorder f.other ++ pathKeys p)).Nodup := (nodup_append.1 h.nodup).2.1
    rcases mem_pathCells_cons.1 hq with rfl | hq
    · rw [hs _ (mem_cons_self ..), linkAt, upd_self, h.above, cellOf_setChild]
    · have hmem : q.1 ∈ inorder f.other ++ pathKeys p := mem_append.2
        (hq.imp fst_mem_of_cells fst_mem_of_pathCells)
      have hne : q.1 ≠ f.key := fun e => (nodup_cons.1 hnd).1 (e ▸ hmem)
      rw [hs q.1 (mem_cons_of_mem _ hmem), linkAt, upd_of_ne hne]
      exact h.path q (mem_pathCells_cons.2 (.inr hq))

theorem linked_at {u : Rbt Nat} (h : At s p t) (hroot : s1.root = s.root)
    (hs : ∀ b ∈ pathKeys p, s1.node b = s.node b) (hsub : ∀ q ∈ cells (top p) u, s1.node q.1 = q.2)
    (hnodup : (inorder u ++ pathKeys p).Nodup) (haddr : ∀ a ∈ inorder u ++ pathKeys p, a ≠ 0 ∧ a % 2 = 0) :
    At (linkAt p s1 (ptr u)) p u := by
  obtain ⟨hr, hn⟩ := linkAt_congr (v := ptr u) hroot hs
  refine h.replace hr hn (fun q hq => ?_) hnodup haddr
  grind [linkAt_of_not_mem, fst_mem_of_cells]

theorem reparent {q q' : Nat} (hsub : ∀ e ∈ cells q B, s.node e.1 = e.2) (hnd : (inorder B).Nodup)
    (hq : q % 2 = 0) (hq' : q' % 2 = 0) (hroot : ptr B ≠ 0 → s1.node (ptr B) = (s.node (ptr B)).setParent q')
    (hrest : ∀ a ∈ inorder B, a ≠ ptr B → s1.node a = s.node a)
    (hB : ∀ a ∈ inorder B, a ≠ 0) : ∀ e ∈ cells q' B, s1.node e.1 = e.2 := by
  intro e he
  by_cases hB0 : B = .nil
  · subst hB0; cases he
  obtain ⟨c, b, l, r, rfl⟩ := Rbt.exists_mk .left hB0
  have hb0 : b ≠ 0 := hB b (mem_inorder_mk.2 (.inl rfl))
  rw [ptr_mk] at hroot hrest
  rcases mem_cells_mk.1 he with rfl | he'
  · rw [hroot hb0, hsub (b, _) (mem_cells_mk.2 (.inl rfl)), cellOf_setParent hq hq']
  · have hmk := nodup_mk.1 hnd
    have hmem : e.1 ∈ inorder l ∨ e.1 ∈ inorder r := he'.imp fst_mem_of_cells fst_mem_of_cells
    have hne : e.1 ≠ b := fun eq => hmem.elim (fun h => hmk.1 (eq ▸ h)) fun h => hmk.2.1 (eq ▸ h)
    rw [hrest e.1 (mem_inorder_mk.2 (.inr hmem)) hne]
    exact hsub e (mem_cells_mk.2 (.inr he'))

/-- The node whose child pointer a change at the end of the path writes. -/
def tops : Path Nat → List Nat
  | [] => []
  | f :: _ => [f.key]

theorem tops_subset (p : Path Nat) : ∀ a ∈ tops p, a ∈ pathKeys p := by
  cases p <;> simp [tops, pathKeys]

theorem same_linkAt {K : List Nat} (h : Same K s s1) (hK : ∀ a ∈ tops p, a ∈ K) : Same K s (linkAt p s1 v) := by
  intro a ha
  cases p with
  | nil => exact h a ha
  | cons f p => exact (h.upd (hK f.key (by simp [tops]))) a ha

theorem rotate_at (h : At s p (Rbt.mk d c x A (Rbt.mk d c' y B C))) :
    ∃ s', rotate d s x = some s' ∧ At s' p (Rbt.mk d c' y (Rbt.mk d c x A B) C) ∧
      Same (inorder (Rbt.mk d c x A (Rbt.mk d c' y B C)) ++ pathKeys p) s s' := by
  have hup := h.down_opp
  obtain ⟨hx0, hx2⟩ := h.key_ok
  obtain ⟨hy0, hy2⟩ := hup.key_ok
  have htop := h.top_even
  have hnx : s.node x = cellOf d (top p) c (ptr A) y := by rw [h.node, ptr_mk]
  have hny : s.node y = cellOf d x c' (ptr B) (ptr C) := hup.node
  obtain ⟨hnd, -, hdisj⟩ := nodup_append.1 h.nodup
  obtain ⟨hxA, hxR, hA, hR, hAR⟩ := nodup_mk.1 hnd
  obtain ⟨hyB, hyC, hB, hC, hBC⟩ := nodup_mk.1 hR
  simp only [mem_inorder_mk, not_or] at hxR hAR
  obtain ⟨hxy, hxB, hxC⟩ := hxR
  have hBok : ∀ b ∈ inorder B, b ≠ 0 := fun b hb => (hup.down.ok b hb).1
  have hBne : ∀ b, b ≠ 0 → b ∉ inorder B → b ≠ ptr B := by
    rintro b hb0 hb rfl
    exact hb (ptr_mem hb0)
  have hxb := hBne x hx0 hxB
  have hyb := hBne y hy0 hyB
  -- the state before the place above is changed
  obtain ⟨s1, hs1⟩ : ∃ s1, s1 = ((((s.upd y (.setChild d x)).upd x (.setChild d.opp (ptr B))).updIf
    (ptr B) (.setParent x)).upd x (.setParent y)).upd y (.setParent (top p)) := ⟨_, rfl⟩
  have hcode : rotate d s x = relink d s1 (top p) x y := by
    unfold rotate
    simp only [load_of_ne hx0, hnx, cellOf_child_opp, load_of_ne hy0, hny, cellOf_child,
      cellOf_parent htop, modify_of_ne hx0, modify_of_ne hy0, modifyIf_eq, bind_eq_bind,
      bind_some, hs1]
  have h1x : s1.node x = cellOf d y c (ptr A) (ptr B) := by
    rw [hs1, upd_of_ne hxy, upd_self, updIf_of_ne hxb, upd_self, upd_of_ne hxy, hnx,
      cellOf_setChild_opp, cellOf_setParent htop hy2]
  have h1y : s1.node y = cellOf d (top p) c' x (ptr C) := by
    rw [hs1, upd_self, upd_of_ne (Ne.symm hxy), updIf_of_ne hyb, upd_of_ne (Ne.symm hxy), upd_self,
      hny, cellOf_setChild, cellOf_setParent hx2 htop]
  have h1b : ptr B ≠ 0 → s1.node (ptr B) = (s.node (ptr B)).setParent x := by
    intro h0
    rw [hs1, upd_of_ne hyb.symm, upd_of_ne hxb.symm, updIf_self h0, upd_of_ne hxb.symm, upd_of_ne hyb.symm]
  have h1o : ∀ a, a ≠ x → a ≠ y → a ≠ ptr B → s1.node a = s.node a := by
    intro a h1 h2 h3
    rw [hs1, upd_of_ne h2, upd_of_ne h1, updIf_of_ne h3, upd_of_ne h1, upd_of_ne h2]
  have hpath : ∀ b ∈ pathKeys p, s1.node b = s.node b := by
    intro b hb
    have hmem := fun a ha => (hdisj a ha b hb).symm
    refine h1o b (hmem x ?_) (hmem y ?_) (hBne b (h.path_ok b hb) fun hbB => hmem b ?_ rfl)
    all_goals simp [mem_inorder_mk]
    exact .inr (.inr (.inr (.inl hbB)))
  have hinorder := inorder_rotate d c c' c c' x y A B C
  refine ⟨linkAt p s1 y, ?_, ?_, same_linkAt ?_ fun a ha => mem_append.2 (.inr (tops_subset p a ha))⟩
  · grind [relink_eq, ptr_mk]
  · have hl := linked_at h
      (by rw [hs1]; simp) hpath ?_ (by rw [hinorder]; exact h.nodup) (by rw [hinorder]; exact h.addr)
    · rwa [ptr_mk] at hl
    intro q hq
    rcases mem_cells_mk.1 hq with rfl | hq | hq
    · rw [h1y, ptr_mk]
    · rcases mem_cells_mk.1 hq with rfl | hq | hq
      · exact h1x
      · have hqA := fst_mem_of_cells hq
        have hqR := hAR q.1 hqA
        rw [h1o q.1 (fun e => hxA (e ▸ hqA)) hqR.1 (hBne _ (h.down.ok _ hqA).1 hqR.2.1)]
        exact h.down.sub q hq
      · refine reparent (q := y) hup.down.sub hB hy2 hx2 h1b (fun a ha hne => ?_) hBok q hq
        grind
    · have hqC := fst_mem_of_cells hq
      rw [h1o q.1 (fun e => hxC (e ▸ hqC)) (fun e => hyC (e ▸ hqC))
        (hBne _ (hup.down_opp.ok _ hqC).1 fun hB => hBC _ hB hqC)]
      exact hup.down_opp.sub q hq
  · have hmx : x ∈ inorder (Rbt.mk d c x A (Rbt.mk d c' y B C)) ++ pathKeys p := by
      simp [mem_inorder_mk]
    have hmy : y ∈ inorder (Rbt.mk d c x A (Rbt.mk d c' y B C)) ++ pathKeys p := by
      simp [mem_inorder_mk]
    rw [hs1]
    refine (((((Same.refl _ s).upd hmy).upd hmx).updIf fun h0 => ?_).upd hmx).upd hmy
    grind [mem_inorder_mk]

end Steps

/-! ## 5. The loops -/

/-- **Where a loop is**: the memory `s` holds `t` at the end of `p`; the keys of the whole tree are
    still `K` in this order, and since `s0` nothing else was written. -/
structure Now (K : List Nat) (s0 s : RbHeap) (p : Path Nat) (t : Rbt Nat) : Prop where
  at_ : At s p t
  keys : inorder (plug p t) = K
  same : Same K s0 s

section Now

variable {K : List Nat} {s0 s : RbHeap} {p : Path Nat} {t A B C o : Rbt Nat} {d : Dir}
  {c c' : Color} {a x y : Nat} {f : Frame Nat}

theorem Now.mem (h : Now K s0 s p t) {b : Nat} : b ∈ K ↔ b ∈ inorder t ++ pathKeys p := by
  rw [← h.keys]
  exact (inorder_plug_perm p t).mem_iff

theorem Now.up (h : Now K s0 s (f :: p) t) : Now K s0 s p (f.fill t) :=
  ⟨at_cons.1 h.at_, h.keys, h.same⟩

theorem Now.down (h : Now K s0 s p (Rbt.mk d c a t o)) : Now K s0 s (⟨d, c, a, o⟩ :: p) t :=
  ⟨at_cons.2 h.at_, h.keys, h.same⟩

theorem Now.swap (h : Now K s0 s (⟨d, c, a, o⟩ :: p) t) : Now K s0 s (⟨d.opp, c, a, t⟩ :: p) o := by
  have h' : Now K s0 s p (Rbt.mk d c a t o) := h.up
  rw [← Rbt.mk_opp] at h'
  exact h'.down

theorem Now.swapBack (h : Now K s0 s (⟨d.opp, c, a, o⟩ :: p) t) : Now K s0 s (⟨d, c, a, t⟩ :: p) o := by
  have h' := h.swap
  rwa [Dir.opp_opp] at h'

theorem Now.recolor (h : Now K s0 s p (Rbt.mk d c a A B)) (f : RbNode → RbNode)
    (hf : f (cellOf d (top p) c (ptr A) (ptr B)) = cellOf d (top p) c' (ptr A) (ptr B)) :
    Now K s0 (s.upd a f) p (Rbt.mk d c' a A B) := by
  refine ⟨recolor_at h.at_ (by rw [h.at_.node, hf]), ?_, h.same.upd ?_⟩
  · rw [← h.keys, inorder_plug, inorder_plug, inorder_mk_congr d c' c a rfl rfl]
  · exact h.mem.2 (mem_append.2 (.inl (mem_inorder_mk.2 (.inl rfl))))

theorem Now.recolorOther {e : Dir} {c'' : Color} (h : Now K s0 s (⟨d, c, x, Rbt.mk e c' y B C⟩ :: p) t)
    (f : RbNode → RbNode) (hf : f (cellOf e x c' (ptr B) (ptr C)) = cellOf e x c'' (ptr B) (ptr C)) :
    Now K s0 (s.upd y f) (⟨d, c, x, Rbt.mk e c'' y B C⟩ :: p) t := (h.swap.recolor f hf).swapBack

theorem Now.rotate (h : Now K s0 s p (Rbt.mk d c x A (Rbt.mk d c' y B C))) :
    ∃ s', rotate d s x = some s' ∧ Now K s0 s' p (Rbt.mk d c' y (Rbt.mk d c x A B) C) := by
  obtain ⟨s', he, hat, hsame⟩ := rotate_at h.at_
  refine ⟨s', he, hat, ?_, h.same.trans (hsame.mono fun b => h.mem.2)⟩
  grind [h.keys, inorder_plug, inorder_rotate]

theorem Now.key_ne (h : Now K s0 s p (Rbt.mk d c a A B)) : a ≠ 0 := h.at_.key_ok.1

theorem Now.blackAt (h : Now K s0 s p t) : s.blackAt (ptr t) = decide (t.color = .black) := by
  unfold RbHeap.blackAt
  cases t with
  | nil => rfl
  | node c l b r =>
    have h' : At s p (Rbt.mk .left c b l r) := h.at_
    show (b == 0 || (s.node b).isBlack) = _
    rw [h'.node, cellOf_isBlack h'.top_even, beq_eq_false_iff_ne.2 h'.key_ok.1]
    rfl

theorem Now.redAt (h : Now K s0 s p t) : s.redAt (ptr t) = decide (t.color = .red) := by
  have hb : s.redAt (ptr t) = !s.blackAt (ptr t) := by
    unfold RbHeap.redAt RbHeap.blackAt RbNode.isRed
    simp [bne]
  rw [hb, h.blackAt]
  cases t.color <;> rfl

/-- The two children of a node have different addresses, unless both are empty. -/
theorem Now.ptr_ne (h : Now K s0 s (f :: p) t) (h0 : t ≠ .nil ∨ f.other ≠ .nil) : ptr t ≠ ptr f.other := by
  intro e
  by_cases ht : ptr t = 0
  · rcases h0 with h0 | h0
    · exact h0 (h.at_.ptr_eq_zero.1 ht)
    · have hsw := Now.swap (d := f.dir) (c := f.color) (a := f.key) (o := f.other) h
      exact h0 (hsw.at_.ptr_eq_zero.1 (e ▸ ht))
  · refine h.at_.disj _ (ptr_mem ht) ?_
    rw [e] at ht ⊢
    simp [pathKeys, ptr_mem ht]

theorem Now.side (h : Now K s0 s (f :: p) t) (h0 : t ≠ .nil ∨ f.other ≠ .nil) :
    (if ptr t = (s.node f.key).left then Dir.left else Dir.right) = f.dir := by
  have hne := h.ptr_ne h0
  rw [h.at_.above]
  cases hd : f.dir with
  | left => exact if_pos rfl
  | right => exact if_neg hne

theorem Now.blackenRoot (h : Now K s0 s [] t) (ht : t ≠ .nil) :
    ∃ s', s.modify s.root .setBlack = some s' ∧ Now K s0 s' [] t.blacken := by
  obtain ⟨c, a, l, r, rfl⟩ := Rbt.exists_mk .left ht
  have hroot : s.root = a := by rw [h.at_.root]; rfl
  refine ⟨_, by rw [hroot]; exact modify_of_ne h.key_ne, ?_⟩
  rw [Rbt.blacken_mk]
  exact h.recolor _ (cellOf_setBlack rfl)

theorem Now.plug (h : Now K s0 s p t) : Now K s0 s [] (Rb.plug p t) :=
  ⟨at_plug.1 h.at_, h.keys, h.same⟩

/-- **The end of a loop**: a balanced tree with a black root. -/
def Ends (K : List Nat) (s0 : RbHeap) (r : Option RbHeap) : Prop :=
  ∃ s' T, r = some s' ∧ Now K s0 s' [] T ∧ ∃ m, Balanced T .black m

/-! ### Insertion -/

section Insert

variable {n : Nat} {S O u : Rbt Nat} {g pk : Nat}

theorem innerInsert_spec {dp : Dir} (h : Now K s0 s (⟨dp, .red, pk, o⟩ :: ⟨d, .black, g, u⟩ :: p) t)
    (ht : Balanced t .red n) (ho : Balanced o .black n) :
    ∃ s' y S O, innerInsert d s (ptr t) pk g = some (s', y, g) ∧
      Now K s0 s' (⟨d, .black, g, u⟩ :: p) (Rbt.mk d .red y S O) ∧ Balanced S .red n ∧ Balanced O .black n := by
  have hup : Now K s0 s (⟨d, .black, g, u⟩ :: p) (Rbt.mk dp .red pk t o) := h.up
  have hg2 : g % 2 = 0 := hup.at_.top_even
  have hpk := hup.key_ne
  have htn : t ≠ .nil := by rintro rfl; cases ht
  have hne := h.ptr_ne (.inl htn)
  unfold innerInsert
  rw [load_of_ne hpk, h.at_.above]
  show ∃ s' y S O, (if ptr t = (cellOf dp g .red (ptr t) (ptr o)).child d.opp then _ else _) = _ ∧ _
  by_cases hd : dp = d
  · subst hd
    rw [cellOf_child_opp, if_neg hne]
    exact ⟨s, pk, t, o, rfl, hup, ht, ho⟩
  · have hd' : dp = d.opp := by
      revert hd
      cases d <;> cases dp <;> simp [Dir.opp]
    subst hd'
    rw [cellOf_child, if_pos rfl]
    obtain ⟨z, B, C, rfl, hB, hC⟩ := ht.exists_red d
    rw [Rbt.mk_opp] at hup
    obtain ⟨s', he, hrot⟩ := hup.rotate
    have hz := hrot.key_ne
    have hnz : s'.node z = cellOf d g .red pk (ptr C) := by rw [hrot.at_.node, ptr_mk]; rfl
    have hnp : s'.node pk = cellOf d z .red (ptr o) (ptr B) := hrot.down.at_.node
    grind [balanced_mk_red, load_of_ne, cellOf_parent, hrot.at_.key_ok.2]

theorem outerInsert_spec (h : Now K s0 s (⟨d, .black, g, u⟩ :: p) (Rbt.mk d .red y S O))
    (hS : Balanced S .red n) (hO : Balanced O .black n) (hu : Balanced u .black n) :
    ∃ s' t', outerInsert d s y g = some s' ∧ Now K s0 s' p t' ∧ Balanced t' .black (n + 1) := by
  have h1 := h.recolor _ (cellOf_setBlack h.at_.top_even)
  have h2 : Now K s0 _ p (Rbt.mk d .black g (Rbt.mk d .black y S O) u) := h1.up
  have h3 := h2.recolor _ (cellOf_setRed h2.at_.top_even)
  rw [← Rbt.mk_opp d .red, ← Rbt.mk_opp d .black] at h3
  obtain ⟨s', he, h4⟩ := h3.rotate
  refine ⟨s', _, ?_, h4, balanced_mk_black (balanced_mk_red hu hO) hS⟩
  grind [outerInsert, modify_of_ne, h.key_ne, h2.key_ne]

/-- The recolouring of `insert_fixup`: parent and uncle black, grandparent red. -/
theorem recolorInsert_spec {dp : Dir}
    (h : Now K s0 s (⟨dp, .red, pk, o⟩ :: ⟨d, .black, g, u⟩ :: p) t) (ht : Balanced t .red n)
    (ho : Balanced o .black n) (hu : Balanced u .red n) :
    ∃ s1 s2 s3 t', s.modify pk .setBlack = some s1 ∧ s1.modify (ptr u) .setBlack = some s2 ∧
      s2.modify g .setRed = some s3 ∧ Now K s0 s3 p t' ∧ ptr t' = g ∧ Balanced t' .red (n + 1) := by
  have h0 : Now K s0 s (⟨d, .black, g, u⟩ :: p) (Rbt.mk dp .red pk t o) := h.up
  have h1 := h0.recolor _ (cellOf_setBlack h0.at_.top_even)
  obtain ⟨uk, ul, ur, rfl, hul, hur⟩ := hu.exists_red .left
  have h2 := h1.recolorOther _ (cellOf_setBlack h0.at_.top_even)
  have h3 : Now K s0 _ p (Rbt.mk d .black g _ (Rbt.mk .left .black uk ul ur)) := h2.up
  have h4 := h3.recolor _ (cellOf_setRed h3.at_.top_even)
  refine ⟨_, _, _, _, modify_of_ne h0.key_ne, ?_, modify_of_ne h3.key_ne, h4, ptr_mk,
    balanced_mk_red (balanced_mk_black ht ho) (balanced_mk_black hul hur)⟩
  rw [ptr_mk]
  exact modify_of_ne h1.swap.key_ne

/-- **`insert_fixup`**: a red tree whose parent may be red. By induction on the fuel; a recolouring
    takes two steps up the path. -/
theorem insertFixup_spec (fuel : Nat) : ∀ {s : RbHeap} {p : Path Nat} {t : Rbt Nat} {n : Nat},
    Now K s0 s p t → Balanced t .red n → PathBal p .black n → p.length < fuel →
    Ends K s0 (insertFixup fuel s (ptr t)) := by
  induction fuel with
  | zero => exact fun _ _ _ hf => absurd hf (by omega)
  | succ fuel ih =>
    intro s p t n h ht hp hf
    have htn : t ≠ .nil := by rintro rfl; cases ht
    have hend : ∀ {s : RbHeap} {p : Path Nat} {t : Rbt Nat} {c m}, Now K s0 s p t → t ≠ .nil →
        Balanced (Rb.plug p t) c m → Ends K s0 (s.modify s.root .setBlack) := by
      intro s p t c m h ht hb
      obtain ⟨s', he, h'⟩ := h.plug.blackenRoot (plug_ne_nil p ht)
      exact ⟨s', _, he, h', hb.blacken⟩
    have hload : s.load (ptr t) = some (s.node (ptr t)) ∧ (s.node (ptr t)).parent = top p := by
      obtain ⟨c, z, l, r, rfl⟩ := Rbt.exists_mk .left htn
      rw [ptr_mk]
      exact ⟨load_of_ne h.key_ne, by rw [h.at_.node, cellOf_parent h.at_.top_even]⟩
    unfold insertFixup
    simp only [hload.1, hload.2, bind_eq_bind, bind_some]
    cases hp with
    | root => exact hend h htn ht
    | @black d a o p _ _ _ ho hp =>
      have ha : a ≠ 0 := h.at_.above_ne
      show Ends K s0 (if a = 0 then _ else _)
      rw [if_neg ha]
      simp only [show top (⟨d, .black, a, o⟩ :: p) = a from rfl, load_of_ne ha, h.at_.above,
        cellOf_isBlack (h.up.at_.top_even), bind_some]
      obtain ⟨m, hm⟩ := (PathBal.black (d := d) (a := a) (c := .red) ho hp).plug ht
      exact hend h htn hm
    | @red d a o p _ ho hp =>
      cases hp with
      | @black d' g u p _ _ cu hu hp =>
        have hup : Now K s0 s (⟨d', .black, g, u⟩ :: p) (Rbt.mk d .red a t o) := h.up
        have hupup : Now K s0 s p (Rbt.mk d' .black g (Rbt.mk d .red a t o) u) := hup.up
        have ha : a ≠ 0 := hup.key_ne
        have hg : g ≠ 0 := hupup.key_ne
        have hna : s.node a = cellOf d g .red (ptr t) (ptr o) := h.at_.above
        have hng : s.node g = cellOf d' (top p) .black a (ptr u) := by rw [hup.at_.above, ptr_mk]
        have hg2 : g % 2 = 0 := hupup.at_.key_ok.2
        have hside := hup.side (.inl (by cases d <;> simp [Rbt.mk]))
        rw [ptr_mk, hng] at hside
        have hred : (cellOf d g .red (ptr t) (ptr o)).isBlack = false := cellOf_isBlack hg2
        simp only [show top (⟨d, .red, a, o⟩ :: ⟨d', .black, g, u⟩ :: p) = a from rfl, if_neg ha,
          load_of_ne ha, bind_some, hna, hred, Bool.false_eq_true, if_false,
          cellOf_parent hg2, if_neg hg, load_of_ne hg, hng, hside, cellOf_child_opp, hup.swap.redAt]
        cases cu with
        | red =>
          obtain ⟨s1, s2, s3, t', e1, e2, e3, h', hptr, ht'⟩ := recolorInsert_spec h ht ho hu
          simp only [hu.color, decide_true, if_true, e1, bind_some, e2, e3]
          grind
        | black =>
          obtain ⟨s1, y, S, O, e1, h1, hS, hO⟩ := innerInsert_spec h ht ho
          obtain ⟨s2, t', e2, h2, ht'⟩ := outerInsert_spec h1 hS hO hu
          have hblack : decide (u.color = .red) = false := by rw [hu.color]; rfl
          simp only [hblack, Bool.false_eq_true, if_false, e1, bind_some, e2]
          obtain ⟨m, hm⟩ := hp.plug ht'
          exact hend h2 ht'.ne_nil hm

/-- The side of a path's hole; the source starts with a pointer to the root. -/
def sideOf : Path Nat → Dir
  | [] => .left
  | f :: _ => f.dir

/-- `a` is less than `b` for the comparison `cmp`. -/
def cmpLt (cmp : Nat → Nat → Int) (a b : Nat) : Prop := cmp a b < 0

/-- **The descent of `rb_insert`** ends at an empty place, left of all keys that are greater. -/
theorem rbLink_spec {cmp : Nat → Nat → Int} {node : Nat} (fuel : Nat) :
    ∀ {p : Path Nat} {t : Rbt Nat} {c : Color} {n : Nat}, Now K s0 s p t → Balanced t c n →
    PathBal p c n → PathCmp (cmpLt cmp) node p → (inorder t).length < fuel →
    ∃ p', rbLink cmp node fuel s (ptr t) (top p) (sideOf p) = some (top p', sideOf p') ∧
      Now K s0 s p' .nil ∧ PathBal p' .black 0 ∧ PathCmp (cmpLt cmp) node p' := by
  induction fuel with
  | zero => exact fun _ _ _ _ hf => absurd hf (by omega)
  | succ fuel ih =>
    intro p t c n h ht hp hcmp hf
    unfold rbLink
    by_cases hnil : t = .nil
    · subst hnil
      cases ht
      exact ⟨p, if_pos rfl, h, hp, hcmp⟩
    obtain ⟨d, hd⟩ : ∃ d, d = if cmp node (ptr t) < 0 then Dir.left else Dir.right := ⟨_, rfl⟩
    obtain ⟨c', a, l, r, rfl⟩ := Rbt.exists_mk d hnil
    rw [ptr_mk] at hd ⊢
    obtain ⟨c₁, m, hp', hl⟩ := hp.down ht
    simp only [if_neg h.key_ne, ← hd, load_of_ne h.key_ne, h.at_.node, cellOf_child, bind_eq_bind, bind_some]
    refine ih h.down hl hp' (fun f hf' => ?_) ?_
    · rcases mem_cons.1 hf' with rfl | hf'
      · show d = .left ↔ cmp node a < 0
        rw [hd]
        split <;> simp_all
      · exact hcmp f hf'
    · have hlen := (inorder_mk_perm d c' a l r).length_eq
      grind

end Insert

/-! ### Erasure -/

section Delete

variable {n : Nat} {w wl wr : Rbt Nat} {xp wk : Nat}

theorem redSibling_spec (h : Now K s0 s (⟨d, c, xp, w⟩ :: p) t)
    (hp : PathBal (⟨d, c, xp, w⟩ :: p) .black (n + 1)) :
    ∃ s' c' wk wl wr p', redSibling d s xp (ptr w) = some (s', wk) ∧
      Now K s0 s' (⟨d, c', xp, Rbt.mk d .black wk wl wr⟩ :: p') t ∧
      PathBal (⟨d, c', xp, Rbt.mk d .black wk wl wr⟩ :: p') .black (n + 1) ∧ (p' = p ∨ c' = .red) := by
  obtain ⟨_, hwb⟩ := hp.other
  obtain ⟨cw, wk, wl, wr, rfl⟩ := Rbt.exists_mk d hwb.ne_nil
  have hsw := h.swap
  have hxp2 : xp % 2 = 0 := hsw.at_.top_even
  have hxp : xp ≠ 0 := h.at_.above_ne
  unfold redSibling
  simp only [ptr_mk, load_of_ne hsw.key_ne, hsw.at_.node, bind_eq_bind, bind_some,
    show top (⟨d.opp, c, xp, t⟩ :: p) = xp from rfl, cellOf_isRed hxp2]
  cases cw with
  | black => grind
  | red =>
    simp only [decide_true, if_true]
    cases hp with
    | red hw _ => cases hw.mk_red.1
    | black hw hp =>
      obtain ⟨-, hwl, hwr⟩ := hw.mk_red
      have h2 : Now K s0 _ p (Rbt.mk d .black xp t (Rbt.mk d .black wk wl wr)) :=
        (h.recolorOther _ (cellOf_setBlack hxp2)).up
      obtain ⟨s', he, h3⟩ := (h2.recolor _ (cellOf_setRed h2.at_.top_even)).rotate
      have hnx : s'.node xp = cellOf d wk .red (ptr t) (ptr wl) := h3.down.at_.node
      obtain ⟨cl, k, A, B, rfl⟩ := Rbt.exists_mk d hwl.ne_nil
      obtain rfl : cl = .black := by simpa using hwl.color
      refine ⟨s', .red, k, A, B, ⟨d, .black, wk, wr⟩ :: p, ?_, h3.down.down,
        .red hwl (.black hwr hp), .inr rfl⟩
      grind [modify_of_ne, hsw.key_ne, load_of_ne, cellOf_child_opp, ptr_mk]

/-- A red inner nephew is rotated outwards: the outer nephew is red now. -/
theorem innerNephew_spec {cl cr : Color}
    (h : Now K s0 s (⟨d, c, xp, Rbt.mk d .black wk wl wr⟩ :: p) t) (hl : Balanced wl cl n)
    (hr : Balanced wr cr n) (hred : ¬ (cl = .black ∧ cr = .black)) :
    ∃ s' wk' wl' wr' c', innerNephew d s xp wk = some (s', wk') ∧
      Now K s0 s' (⟨d, c, xp, Rbt.mk d .black wk' wl' wr'⟩ :: p) t ∧ Balanced wl' c' n ∧
      Balanced wr' .red n := by
  have hsw := h.swap
  have hxp2 : xp % 2 = 0 := hsw.at_.top_even
  have hxp : xp ≠ 0 := h.at_.above_ne
  have hnw : s.node wk = cellOf d xp .black (ptr wl) (ptr wr) := hsw.at_.node
  have hdr : Now K s0 s _ wr := hsw.down.swap
  unfold innerNephew
  simp only [load_of_ne hsw.key_ne, hnw, bind_eq_bind, bind_some, cellOf_child_opp,
    hdr.blackAt, hr.color, cellOf_child]
  cases cr with
  | red => grind
  | black =>
    obtain rfl : cl = .red := by cases cl <;> simp_all
    simp only [decide_true, if_true]
    obtain ⟨k, A, B, rfl, hA, hB⟩ := hl.exists_red d
    have hk := hsw.down.key_ne
    have h1 : Now K s0 _ (⟨d.opp, c, xp, t⟩ :: p) (Rbt.mk d .black wk (Rbt.mk d .black k A B) wr) :=
      (hsw.down.recolor _ (cellOf_setBlack hsw.down.at_.top_even)).up
    have h2 := h1.recolor _ (cellOf_setRed hxp2)
    rw [← Rbt.mk_opp d .red, ← Rbt.mk_opp d .black] at h2
    obtain ⟨s', he, h3⟩ := h2.rotate
    rw [Rbt.mk_opp, Rbt.mk_opp] at h3
    have hnx : s'.node xp = cellOf d.opp (top p) c k (ptr t) := by rw [h3.at_.above, ptr_mk]
    refine ⟨s', k, A, Rbt.mk d .red wk B wr, .black, ?_, h3.swapBack, hA, balanced_mk_red hB hr⟩
    simp only [ptr_mk, modifyIf_eq, RbHeap.updIf, if_neg hk, modify_of_ne hsw.key_ne,
      bind_some, he, load_of_ne hxp, hnx, cellOf_child]

theorem outerNephew_spec {cl : Color} {o : Rbt Nat}
    (h : Now K s0 s (⟨d, c, xp, Rbt.mk d .black wk wl wr⟩ :: p) t) (ht : Balanced t .black n)
    (hl : Balanced wl cl n) (hr : Balanced wr .red n) (hp : PathBal (⟨d, c, xp, o⟩ :: p) .black (n + 1)) :
    ∃ s' t' m, outerNephew d s xp wk = some s' ∧ Now K s0 s' p t' ∧ Balanced (Rb.plug p t') .black m := by
  have hsw := h.swap
  have hxp : xp ≠ 0 := h.at_.above_ne
  have hnx : s.node xp = cellOf d (top p) c (ptr t) wk := by rw [h.at_.above, ptr_mk]
  have htop : top p % 2 = 0 := h.up.at_.top_even
  have hxp2 : xp % 2 = 0 := hsw.at_.top_even
  have h2 : Now K s0 _ p (Rbt.mk d c xp t (Rbt.mk d c wk wl wr)) := (h.recolorOther
    (.setColorOf (s.node xp)) (by rw [hnx, cellOf_setColorOf hxp2 htop])).up
  have h3 := (h2.recolor _ (cellOf_setBlack htop)).down.swap
  have hnw := h3.at_.node
  obtain ⟨k, A, B, rfl, hA, hB⟩ := hr.exists_red d
  have h4 := h3.down
  have h5 : Now K s0 _ (⟨d.opp, .black, xp, t⟩ :: p) (Rbt.mk d c wk wl (Rbt.mk d .black k A B)) :=
    (h4.recolorOther _ (cellOf_setBlack h4.swap.at_.top_even)).up
  have h6 : Now K s0 _ p (Rbt.mk d .black xp t (Rbt.mk d c wk wl (Rbt.mk d .black k A B))) := h5.swapBack.up
  obtain ⟨s', he, h7⟩ := h6.rotate
  have hx : Balanced (Rbt.mk d .black xp t wl) .black (n + 1) := balanced_mk_black ht hl
  have hk : Balanced (Rbt.mk d .black k A B) .black (n + 1) := balanced_mk_black hA hB
  have hbal : ∃ m, Balanced (Rb.plug p (Rbt.mk d c wk (Rbt.mk d .black xp t wl) (Rbt.mk d .black k A B))) .black m := by
    cases hp with
    | red _ hp => exact hp.plug (balanced_mk_red hx hk)
    | black _ hp => exact hp.plug (balanced_mk_black hx hk)
  refine ⟨s', _, _, ?_, h7, hbal.choose_spec⟩
  unfold outerNephew
  simp only [load_of_ne hxp, bind_eq_bind, bind_some, modify_of_ne hsw.key_ne,
    modify_of_ne hxp, load_of_ne h3.key_ne, hnw, cellOf_child_opp, ptr_mk, modifyIf_eq,
    RbHeap.updIf, if_neg h4.swap.key_ne, he]

/-- A tree with one black node too few on its paths, or a red root to be painted black. -/
def DelOk (t : Rbt Nat) (n : Nat) : Prop :=
  Balanced t .black n ∨ t.color = .red ∧ Balanced t.blacken .black (n + 1)

theorem Now.blacken (h : Now K s0 s p t) :
    ∃ s', s.modifyIf (ptr t) .setBlack = some s' ∧ Now K s0 s' p t.blacken := by
  rw [modifyIf_eq]
  by_cases hnil : t = .nil
  · subst hnil
    exact ⟨_, rfl, h⟩
  · obtain ⟨c, a, l, r, rfl⟩ := Rbt.exists_mk .left hnil
    refine ⟨_, rfl, ?_⟩
    rw [ptr_mk, Rbt.blacken_mk, RbHeap.updIf, if_neg h.key_ne]
    exact h.recolor _ (cellOf_setBlack h.at_.top_even)

theorem rootPtr_mem (f : Frame Nat) (p : Path Nat) (h : Nat) : rootPtr (f :: p) h ∈ pathKeys (f :: p) := by
  induction p generalizing f h with
  | nil => simp [rootPtr, pathKeys]
  | cons g p ih =>
    have := ih g f.key
    simp only [pathKeys, mem_cons, mem_append] at this ⊢
    exact .inr (.inr this)

theorem Now.ptr_ne_root (h : Now K s0 s (f :: p) t) : ptr t ≠ s.root := by
  intro e
  have hr : s.root ∈ pathKeys (f :: p) := by
    rw [h.at_.root]
    exact rootPtr_mem f p _
  rw [← e] at hr
  exact h.at_.disj _ (ptr_mem (h.at_.path_ok _ hr)) hr

theorem deleteFixup_exit {m : Nat} (h : Now K s0 s p t) (hx : ¬ (ptr t ≠ s.root ∧ s.blackAt (ptr t) = true))
    (hb : Balanced (Rb.plug p t.blacken) .black m) (fuel xp : Nat) :
    Ends K s0 (deleteFixup (fuel + 1) s (ptr t) xp) := by
  obtain ⟨s', he, h'⟩ := h.blacken
  refine ⟨s', _, ?_, h'.plug, m, hb⟩
  unfold deleteFixup
  rw [if_neg hx]
  exact he

theorem deleteFixup_root {m : Nat} (h : Now K s0 s [] t) (ht : Balanced t c m) (fuel : Nat) :
    Ends K s0 (deleteFixup (fuel + 1) s (ptr t) 0) := by
  obtain ⟨m, hm⟩ := ht.blacken
  exact deleteFixup_exit h (fun hx => hx.1 h.at_.root.symm) hm fuel 0

/-- **A round of `delete_fixup`**: the missing black node goes up one step, or the tree is whole. -/
theorem deleteRound (h : Now K s0 s (⟨d, c, xp, w⟩ :: p) t) (ht : Balanced t .black n)
    (hp : PathBal (⟨d, c, xp, w⟩ :: p) .black (n + 1)) :
    (∃ s' t' m p', deleteFixup (fuel + 2) s (ptr t) xp = deleteFixup (fuel + 1) s' (ptr t') (top p') ∧
      Now K s0 s' p' t' ∧ DelOk t' m ∧ PathBal p' .black (m + 1) ∧ (t'.color = .black → p' = p)) ∨
    Ends K s0 (deleteFixup (fuel + 2) s (ptr t) xp) := by
  obtain ⟨_, hw⟩ := hp.other
  have hxp : xp ≠ 0 := h.at_.above_ne
  have hcond : ptr t ≠ s.root ∧ s.blackAt (ptr t) = true :=
    ⟨h.ptr_ne_root, by rw [h.blackAt, ht.color]; rfl⟩
  have hnx := h.at_.above
  have hside := h.side (.inr hw.ne_nil)
  dsimp only at hnx hside
  rw [hnx] at hside
  obtain ⟨s1, c', wk, wl, wr, p', e1, h1, hp1, hpc⟩ := redSibling_spec h hp
  have hsw := h1.swap
  have hnw : s1.node wk = cellOf d xp .black (ptr wl) (ptr wr) := hsw.at_.node
  obtain ⟨cw, hbal⟩ := hp1.other
  obtain ⟨-, m, c₁, c₂, hm, hwl, hwr⟩ := hbal.mk_black
  obtain rfl : n = m := by omega
  have hbl : s1.blackAt (ptr wl) = decide (c₁ = .black) := by rw [hsw.down.blackAt, hwl.color]
  have hbr : s1.blackAt (ptr wr) = decide (c₂ = .black) := by rw [hsw.down.swap.blackAt, hwr.color]
  rw [deleteFixup.eq_2 s (ptr t) xp (fuel + 1)]
  simp only [if_pos hcond, load_of_ne hxp, hnx, bind_eq_bind, bind_some, hside,
    cellOf_child_opp, e1, load_of_ne hsw.key_ne, hnw, cellOf_child, hbl, hbr]
  by_cases hboth : c₁ = .black ∧ c₂ = .black
  · obtain ⟨rfl, rfl⟩ := hboth
    have h3 : Now K s0 _ p' (Rbt.mk d c' xp t (Rbt.mk d .red wk wl wr)) :=
      (h1.recolorOther _ (cellOf_setRed hsw.at_.top_even)).up
    have hwred : Balanced (Rbt.mk d .red wk wl wr) .red n := balanced_mk_red hwl hwr
    have hblack : Balanced (Rbt.mk d .black xp t (Rbt.mk d .red wk wl wr)) .black (n + 1) :=
      balanced_mk_black ht hwred
    simp only [decide_true, Bool.and_self, if_true, modify_of_ne hsw.key_ne, bind_some,
      h3.at_.node, cellOf_parent h3.at_.top_even]
    refine .inl ⟨s1.upd wk .setRed, Rbt.mk d c' xp t (Rbt.mk d .red wk wl wr), ?_⟩
    rw [ptr_mk]
    cases hp1 with
    | red _ hp2 =>
      refine ⟨n, p', rfl, h3, .inr ⟨Rbt.color_mk .., ?_⟩, hp2.of_red, fun hc => ?_⟩
      · rw [Rbt.blacken_mk]; exact hblack
      · rw [Rbt.color_mk] at hc; cases hc
    | black _ hp2 =>
      exact ⟨n + 1, p', rfl, h3, .inl hblack, hp2, fun _ => hpc.resolve_right (by simp)⟩
  · have hcase : (decide (c₁ = .black) && decide (c₂ = .black)) = false := by
      cases c₁ <;> cases c₂ <;> simp_all
    simp only [hcase, Bool.false_eq_true, if_false]
    obtain ⟨s2, wk', wl', wr', c₃, e2, h2, hwl', hwr'⟩ := innerNephew_spec h1 hwl hwr hboth
    obtain ⟨s3, t', m, e3, h3, hm⟩ := outerNephew_spec h2 ht hwl' hwr' hp1
    simp only [e2, bind_some, e3]
    rw [h3.plug.at_.root]
    exact .inr (deleteFixup_root h3.plug hm fuel)

/-- **`delete_fixup`**, by induction on the fuel: one step up the path per round, but for a red
    sibling, after which the next round is the last. -/
theorem deleteFixup_spec (fuel : Nat) : ∀ {s : RbHeap} {p : Path Nat} {t : Rbt Nat} {n : Nat},
    Now K s0 s p t → DelOk t n → PathBal p .black (n + 1) → (t.color = .black → p.length ≤ fuel) →
    Ends K s0 (deleteFixup (fuel + 1) s (ptr t) (top p)) := by
  induction fuel with
  | zero =>
    intro s p t n h ht hp hf
    rcases ht with ht | ⟨hc, ht⟩
    · obtain rfl : p = [] := length_eq_zero_iff.1 (Nat.le_zero.1 (hf ht.color))
      exact deleteFixup_root h ht 0
    · obtain ⟨m, hm⟩ := hp.plug ht
      exact deleteFixup_exit h (fun hx => by rw [h.blackAt, hc] at hx; simp at hx) hm 0 _
  | succ fuel ih =>
    intro s p t n h ht hp hf
    rcases ht with ht | ⟨hc, ht⟩
    · cases p with
      | nil => exact deleteFixup_root h ht _
      | cons f p =>
        have hlen := hf ht.color
        simp only [length_cons] at hlen
        rcases deleteRound h ht hp with ⟨s', t', m, p', he, h', ht', hp', hpp⟩ | hend
        · rw [show top (f :: p) = f.key from rfl, he]
          exact ih h' ht' hp' fun hc => by rw [hpp hc]; omega
        · exact hend
    · obtain ⟨m, hm⟩ := hp.plug ht
      exact deleteFixup_exit h (fun hx => by rw [h.blackAt, hc] at hx; simp at hx) hm _ _

/-- Taking out a node with one child: nothing is missing if it was red. -/
theorem removed_bal {v : Rbt Nat} {z : Nat} (hp : PathBal p c n) (h : Balanced (Rbt.mk d c' z v .nil) c n) :
    (c' = .red → ∃ m, Balanced (Rb.plug p v) .black m) ∧ (c' = .black → DelOk v 0 ∧ PathBal p .black 1) := by
  constructor
  · rintro rfl
    obtain ⟨rfl, hv, hnil⟩ := h.mk_red
    cases hnil
    exact hp.of_red.plug hv
  · rintro rfl
    obtain ⟨rfl, m, c₁, c₂, rfl, hv, hnil⟩ := h.mk_black
    cases hnil
    refine ⟨?_, hp⟩
    cases c₁ with
    | black => exact .inl hv
    | red => exact .inr ⟨hv.color, hv.blacken_red⟩

end Delete

end Now

/-! ### Taking a node out -/

section Transplant

variable {s s2 : RbHeap} {p q : Path Nat} {l r v R : Rbt Nat} {d : Dir} {c cy : Color} {y z : Nat}

theorem transplant_at (h : At s p (Rbt.mk d c z v .nil)) :
    ∃ s', transplant s z (ptr v) = some s' ∧ At s' p v ∧ Same (inorder v ++ tops p) s s' := by
  have htop := h.top_even
  obtain ⟨hz0, hz2⟩ := h.key_ok
  have hv : (inorder v).Nodup := (nodup_append.1 h.down.nodup).1
  have hvp : ∀ a ∈ inorder v, a ∉ pathKeys p := fun a ha => h.disj a (mem_inorder_mk.2 (.inr (.inl ha)))
  have hpne : ∀ b ∈ pathKeys p, b ≠ ptr v := by
    rintro b hb rfl
    exact hvp _ (ptr_mem (h.path_ok _ hb)) hb
  generalize hs' : (linkAt p s (ptr v)).updIf (ptr v) (.setParent (top p)) = s'
  refine ⟨s', ?_, ?_, ?_⟩
  · unfold transplant
    have hrl := relink_eq (d := .left) (v := ptr v) h (by rw [ptr_mk]; exact hz0) fun b _ => rfl
    grind [ptr_mk, load_of_ne, h.node, cellOf_parent, modifyIf_eq]
  · refine h.replace (by rw [← hs', updIf_root]) (fun b hb => ?_) (fun e he => ?_) ?_ ?_
    · rw [← hs', updIf_of_ne (hpne b hb)]
    · refine reparent (q := z) h.down.sub hv hz2 htop (fun h0 => ?_) (fun a ha hne => ?_)
        (fun a ha => (h.down.ok a ha).1) e he
      · rw [← hs', updIf_self h0, linkAt_of_not_mem (hvp _ (ptr_mem h0))]
      · rw [← hs', updIf_of_ne hne, linkAt_of_not_mem (hvp a ha)]
    · exact nodup_append.2 ⟨hv, (nodup_append.1 h.nodup).2.1, fun a ha b hb e => hvp a ha (e ▸ hb)⟩
    · intro a ha
      rcases mem_append.1 ha with ha | ha
      · exact h.down.ok a ha
      · exact h.addr a (mem_append.2 (.inr ha))
  grind [Same.updIf, same_linkAt, Same.refl, ptr_mem]

/-- **`y` takes the place of `z`**, with the subtree `R` that hangs under it already. -/
theorem takeOver_at {r₀ : Rbt Nat} {q₀ h₀ : Nat} (h : At s p (Rbt.mk .left c z l r₀)) (hl : l ≠ .nil)
    (hroot : s2.root = s.root) (hsame : ∀ a ∈ z :: (inorder l ++ pathKeys p), s2.node a = s.node a)
    (hy : s2.node y = cellOf .left q₀ cy h₀ (ptr R)) (hq₀ : q₀ % 2 = 0)
    (hR : ∀ e ∈ cells y R, s2.node e.1 = e.2) (hnodup : (inorder (Rbt.mk .left c y l R) ++ pathKeys p).Nodup)
    (haddr : ∀ a ∈ inorder (Rbt.mk .left c y l R) ++ pathKeys p, a ≠ 0 ∧ a % 2 = 0) (hzy : z ≠ y) :
    ∃ s', takeOver s2 z y = some s' ∧ At s' p (Rbt.mk .left c y l R) ∧
      Same (inorder (Rbt.mk .left c y l R) ++ pathKeys p) s2 s' := by
  have htop := h.top_even
  obtain ⟨hz0, hz2⟩ := h.key_ok
  obtain ⟨hnd, hndp, hdisj⟩ := nodup_append.1 hnodup
  obtain ⟨hyl, hyR, hlnd, -, hlR⟩ := nodup_mk.1 hnd
  obtain ⟨hy0, hy2⟩ := haddr y (mem_append.2 (.inl (mem_inorder_mk.2 (.inl rfl))))
  have hzl : z ∉ inorder l := (nodup_mk.1 (nodup_append.1 h.nodup).1).1
  have hl0 : ptr l ≠ 0 := fun e => hl (h.down.ptr_eq_zero.1 e)
  have hlmem := ptr_mem hl0
  have hyp : y ∉ pathKeys p := fun hm => hdisj y (mem_inorder_mk.2 (.inl rfl)) y hm rfl
  have hzp : z ∉ pathKeys p := h.disj z (mem_inorder_mk.2 (.inl rfl))
  have hlp : ∀ a ∈ inorder l, a ∉ pathKeys p := fun a ha => h.disj a (mem_inorder_mk.2 (.inr (.inl ha)))
  have hRp : ∀ a ∈ inorder R, a ∉ pathKeys p := fun a ha hm =>
    hdisj a (mem_inorder_mk.2 (.inr (.inr ha))) a hm rfl
  have hly : ptr l ≠ y := fun e => hyl (e ▸ hlmem)
  have hlz : ptr l ≠ z := fun e => hzl (e ▸ hlmem)
  have hnz : s2.node z = cellOf .left (top p) c (ptr l) (ptr r₀) := by
    rw [hsame z (mem_cons_self ..), h.node]
  generalize hs' : ((((linkAt p s2 y).upd y (.setParent (top p))).upd y
    (.setChild .left (ptr l))).upd (ptr l) (.setParent y)).upd y (.setColorOf (s2.node z)) = s'
  have hys' : s'.node y = cellOf .left (top p) c (ptr l) (ptr R) := by
    rw [← hs', upd_self, upd_of_ne (Ne.symm hly), upd_self, upd_self, linkAt_of_not_mem hyp, hy, hnz,
      cellOf_setParent hq₀ htop, cellOf_setChild, cellOf_setColorOf htop htop]
  have hls' : s'.node (ptr l) = (s2.node (ptr l)).setParent y := by
    rw [← hs', upd_of_ne hly, upd_self, upd_of_ne hly, upd_of_ne hly, linkAt_of_not_mem (hlp _ hlmem)]
  have hos' : ∀ a, a ≠ y → a ≠ ptr l → s'.node a = (linkAt p s2 y).node a := by
    intro a h1 h2
    rw [← hs', upd_of_ne h1, upd_of_ne h2, upd_of_ne h1, upd_of_ne h1]
  have hpne : ∀ b ∈ pathKeys p, b ≠ y ∧ b ≠ ptr l := fun b hb =>
    ⟨fun e => hyp (e ▸ hb), fun e => hlp _ hlmem (e ▸ hb)⟩
  have hpath : ∀ b ∈ pathKeys p, s2.node b = s.node b :=
    fun b hb => hsame b (mem_cons_of_mem _ (mem_append.2 (.inr hb)))
  refine ⟨s', ?_, ?_, ?_⟩
  · have hrl := relink_eq (d := .left) (v := y) h (by rw [ptr_mk]; exact hz0) hpath
    rw [ptr_mk] at hrl
    have hz1 : ∀ f g, ((linkAt p s2 y).upd y f).node z = s2.node z ∧
        ((((linkAt p s2 y).upd y f).upd y g).upd (ptr l) (.setParent y)).node z = s2.node z := by
      intro f g
      rw [upd_of_ne hzy, upd_of_ne (Ne.symm hlz), upd_of_ne hzy, upd_of_ne hzy, linkAt_of_not_mem hzp]
      exact ⟨rfl, rfl⟩
    unfold takeOver transplant
    simp only [load_of_ne hz0, hnz, cellOf_parent htop, bind_eq_bind, bind_some, hrl,
      modifyIf_eq, RbHeap.updIf, if_neg hy0, (hz1 _ id).1, modify_of_ne hy0, ← hs']
    grind [cellOf_left, modify_of_ne]
  · obtain ⟨hr, hn⟩ := linkAt_congr (v := y) hroot hpath
    refine h.replace ?_ (fun b hb => ?_) (fun e he => ?_) hnodup haddr
    · rw [← hs', ptr_mk, ← hr]
      rfl
    · rw [hos' b (hpne b hb).1 (hpne b hb).2, hn b hb, ptr_mk]
    · rcases mem_cells_mk.1 he with rfl | he | he
      · exact hys'
      · refine reparent (s := s2) (q := z) (fun e he => ?_) hlnd hz2 hy2 (fun _ => hls')
          (fun a ha hne => ?_) (fun a ha => (h.down.ok a ha).1) e he
        · rw [hsame e.1 (mem_cons_of_mem _ (mem_append.2 (.inl (fst_mem_of_cells he))))]
          exact h.down.sub e he
        grind [linkAt_of_not_mem]
      grind [fst_mem_of_cells, linkAt_of_not_mem]
  · have hmy : y ∈ inorder (Rbt.mk .left c y l R) ++ pathKeys p := by simp [mem_inorder_mk]
    have hml : ptr l ∈ inorder (Rbt.mk .left c y l R) ++ pathKeys p := by
      simp [mem_inorder_mk, hlmem]
    rw [← hs']
    refine ((((same_linkAt (Same.refl _ s2) fun a ha => ?_).upd hmy).upd hmy).upd hml).upd hmy
    grind [tops_subset]

theorem at_append : At s (q ++ p) v ↔ At s p (plug q v) := by
  induction q generalizing v with
  | nil => exact Iff.rfl
  | cons f q ih => exact at_cons.trans ih

theorem leftmost_spec (fuel : Nat) {t : Rbt Nat} : ∀ {p : Path Nat}, At s p t → t ≠ .nil →
    (inorder t).length ≤ fuel → ∃ q c y r, leftmost fuel s (ptr t) = some y ∧
      t = plug q (Rbt.mk .left c y .nil r) ∧ ∀ f ∈ q, f.dir = .left := by
  induction t generalizing fuel with
  | nil => exact fun _ h => absurd rfl h
  | node c l a r ihl _ =>
    intro p h _ hf
    simp only [inorder, length_append, length_cons] at hf
    obtain ⟨fuel, rfl⟩ : ∃ k, fuel = k + 1 := ⟨fuel - 1, by omega⟩
    have h' : At s p (Rbt.mk .left c a l r) := h
    unfold leftmost
    simp only [show ptr (.node c l a r) = a from rfl, load_of_ne h'.key_ok.1, h'.node,
      bind_eq_bind, bind_some]
    show ∃ q c' y r', (if ptr l = 0 then _ else _) = _ ∧ _
    by_cases hl : l = .nil
    · subst hl
      exact ⟨[], c, a, r, rfl, rfl, fun _ hf => absurd hf not_mem_nil⟩
    · rw [if_neg fun e => hl (h'.down.ptr_eq_zero.1 e)]
      obtain ⟨q, c', y, r', he, rfl, hq⟩ := ihl fuel h'.down hl (by omega)
      refine ⟨q ++ [⟨.left, c, a, r⟩], c', y, r', he, by rw [plug_append]; rfl, fun f hf => ?_⟩
      grind

/-- **The successor `y` of `z` leaves its place**: it is free, with what was right of `z` under it. -/
theorem detach_spec
    (h : At s p (Rbt.mk .left c z l (plug q (Rbt.mk .left cy y .nil v)))) (hq : ∀ f ∈ q, f.dir = .left) :
    ∃ s1 s2 r₀ q₀ h₀, detach s z y = some (s2, top (q ++ ⟨.right, c, y, l⟩ :: p)) ∧
      At s1 p (Rbt.mk .left c z l r₀) ∧ s2.root = s1.root ∧
      (∀ a ∈ z :: (inorder l ++ pathKeys p), s2.node a = s1.node a) ∧
      s2.node y = cellOf .left q₀ cy h₀ (ptr (plug q v)) ∧ q₀ % 2 = 0 ∧
      (∀ e ∈ cells y (plug q v), s2.node e.1 = e.2) ∧ Same (y :: inorder (plug q v)) s s2 := by
  have hz0 := h.key_ok.1
  have hup : At s (q ++ ⟨.right, c, z, l⟩ :: p) (Rbt.mk .left cy y .nil v) := at_append.2 (at_cons.2 h)
  obtain ⟨hy0, hy2⟩ := hup.key_ok
  have hny := hup.node
  have htop := hup.top_even
  have hzr : z ∉ inorder (plug q (Rbt.mk .left cy y .nil v)) :=
    (nodup_mk.1 (nodup_append.1 h.nodup).1).2.1
  unfold detach
  simp only [load_of_ne hy0, hny, cellOf_parent htop, bind_eq_bind, bind_some]
  cases q with
  | nil =>
    rw [show top ([] ++ (⟨.right, c, z, l⟩ : Frame Nat) :: p) = z from rfl, if_pos rfl]
    exact ⟨s, s, _, z, 0, rfl, h, rfl, fun _ _ => rfl, hny, h.key_ok.2,
      hup.down_opp.sub, Same.refl _ s⟩
  | cons f q =>
    have hf : f.key ≠ z := by
      intro e
      refine hzr ((inorder_plug_perm _ _).mem_iff.2 (mem_append.2 (.inr ?_)))
      simp [pathKeys, e]
    rw [show top (f :: q ++ (⟨.right, c, z, l⟩ : Frame Nat) :: p) = f.key from rfl, if_neg hf]
    -- the successor leaves its place
    have hup' : At s ((f :: q) ++ ⟨.right, c, z, l⟩ :: p) (Rbt.mk .right cy y v .nil) := hup
    obtain ⟨s1, e1, h1, hsame1⟩ := transplant_at hup'
    have h1' : At s1 p (Rbt.mk .left c z l (plug (f :: q) v)) := at_cons.1 (at_append.1 h1)
    obtain ⟨R, hR⟩ : ∃ R, R = plug (f :: q) v := ⟨_, rfl⟩
    rw [← hR] at h1' ⊢
    have hRkeys : inorder (plug (f :: q) (Rbt.mk .left cy y .nil v)) = y :: inorder R := by
      rw [hR, inorder_plug, inorder_plug, before_left hq]
      simp [Rbt.mk, inorder]
    have hndR : y ∉ inorder R := by
      have := (nodup_mk.1 (nodup_append.1 h.nodup).1).2.2.2.1
      rw [hRkeys] at this
      exact (nodup_cons.1 this).1
    have hzy : z ≠ y := by
      rintro rfl
      exact hzr (by rw [hRkeys]; exact mem_cons_self ..)
    obtain ⟨hnd1, -, hdisj1⟩ := nodup_append.1 h1'.nodup
    obtain ⟨hzl, hzR, -, hRnd, hlR⟩ := nodup_mk.1 hnd1
    have hyout : ∀ a ∈ z :: (inorder l ++ pathKeys p), a ≠ y := by
      rintro a ha rfl
      rcases mem_cons.1 ha with e | ha
      · exact hzy e.symm
      · have hay : a ∈ inorder (plug (f :: q) (Rbt.mk .left cy a .nil v)) := by
          rw [hRkeys]; exact mem_cons_self ..
        rcases mem_append.1 ha with ha | ha
        · exact (nodup_mk.1 (nodup_append.1 h.nodup).1).2.2.2.2 a ha hay
        · exact (nodup_append.1 h.nodup).2.2 a (mem_inorder_mk.2 (.inr (.inr hay))) a ha rfl
    have hRn : R ≠ .nil := by
      rw [hR]
      show plug q (f.fill v) ≠ .nil
      refine plug_ne_nil q ?_
      unfold Frame.fill
      cases f.dir <;> simp [Rbt.mk]
    have hR0 : ptr R ≠ 0 := fun e => hRn (h1'.down_opp.ptr_eq_zero.1 e)
    have hRmem := ptr_mem hR0
    have hRy : ptr R ≠ y := fun e => hndR (e ▸ hRmem)
    have hRout : ∀ a ∈ z :: (inorder l ++ pathKeys p), a ≠ ptr R := by
      rintro a ha rfl
      rcases mem_cons.1 ha with e | ha
      · exact hzR (e ▸ hRmem)
      · rcases mem_append.1 ha with ha | ha
        · exact hlR _ ha hRmem
        · exact hdisj1 _ (mem_inorder_mk.2 (.inr (.inr hRmem))) _ ha rfl
    have hny1 : s1.node y = cellOf .left f.key cy 0 (ptr v) := by
      rw [hsame1 y ?_, hny]
      · rfl
      · intro hm
        grind [inorder_plug_perm, tops, pathKeys]
    have hf2 : f.key % 2 = 0 := htop
    refine ⟨s1, (s1.upd y (.setChild .right (ptr R))).upd (ptr R) (.setParent y), R, f.key, 0, ?_, h1',
      rfl, fun a ha => ?_, ?_, hf2, ?_, ?_⟩
    · have e1' : transplant s y (cellOf .left f.key cy 0 (ptr v)).right = some s1 := e1
      simp only [show ptr (.nil : Rbt Nat) = 0 from rfl, e1', bind_some, load_of_ne hz0, h1'.node, modify_of_ne hy0]
      rw [cellOf_right, modify_of_ne hR0]
      rfl
    · rw [upd_of_ne (hRout a ha), upd_of_ne (hyout a ha)]
    · rw [upd_of_ne (Ne.symm hRy), upd_self, hny1]
      rfl
    · refine reparent (s := s1) (q := z) h1'.down_opp.sub hRnd h1'.key_ok.2 hy2 (fun _ => ?_)
        (fun a ha hne => ?_) fun a ha => (h1'.down_opp.ok a ha).1
      · rw [upd_self, upd_of_ne hRy]
      grind [upd_of_ne]
    · refine ((hsame1.mono fun a ha => ?_).upd (mem_cons_self ..)).upd (mem_cons_of_mem _ hRmem)
      grind [inorder_plug_perm, tops, pathKeys]

end Transplant

section Calls

variable {s : RbHeap} {T : Rbt Nat} {n : Nat}

/-- A balanced tree with a black root in memory. -/
structure RbOk (s : RbHeap) (T : Rbt Nat) : Prop where
  at_ : At s [] T
  bal : ∃ m, Balanced T .black m

theorem RbOk.now (h : RbOk s T) : Now (inorder T) s s [] T := ⟨h.at_, rfl, Same.refl _ s⟩

theorem rbInsert_spec (h : RbOk s T) {cmp : Nat → Nat → Int} {node : Nat} (h0 : node ≠ 0)
    (h2 : node % 2 = 0) (hnew : node ∉ inorder T) (hf : (inorder T).length < fuel) :
    ∃ s' T' xs ys, rbInsert fuel cmp s node = some s' ∧ RbOk s' T' ∧ inorder T = xs ++ ys ∧
      inorder T' = xs ++ node :: ys ∧ Same (inorder T') s s' ∧
      (StrictWeak (cmpLt cmp) → Sorted (cmpLt cmp) (inorder T) → Sorted (cmpLt cmp) (inorder T')) := by
  obtain ⟨m, hm⟩ := h.bal
  obtain ⟨p, he, hp, hbal, hcmp⟩ := rbLink_spec fuel h.now hm .root
    (fun _ hf => by cases hf) hf
  have hK : inorder T = before p ++ after p := by
    rw [← hp.keys, inorder_plug]
    simp [inorder]
  have hlen := length_plug p .nil
  rw [hp.keys] at hlen
  have hnotin : node ∉ pathKeys p := fun hmem => hnew (hp.mem.2 (mem_append.2 (.inr hmem)))
  -- the new node hangs at its place
  generalize hs1 : (s.upd node fun _ => ⟨top p, 0, 0⟩) = s1
  have hat : At (linkAt p s1 node) p (.node .red .nil node .nil) := by
    refine linked_at (u := .node .red .nil node .nil) hp.at_ (by rw [← hs1]; rfl) (fun b hb => ?_) ?_ ?_ ?_
    · grind [upd_of_ne]
    · grind [cells, bit, ptr, upd_self]
    · grind [hp.at_.nodup, inorder]
    · intro a ha
      simp only [inorder, nil_append, cons_append, mem_cons] at ha
      rcases ha with rfl | ha
      · exact ⟨h0, h2⟩
      · exact hp.at_.addr a (mem_append.2 (.inr ha))
  have hnow : Now (before p ++ node :: after p) s (linkAt p s1 node) p
      (.node .red .nil node .nil) := by
    refine ⟨hat, by simp [inorder_plug, inorder], same_linkAt ?_ fun a ha => ?_⟩
    · rw [← hs1]
      exact (Same.refl _ s).upd (by simp)
    · have hmem : a ∈ inorder T := hp.mem.2 (mem_append.2 (.inr (tops_subset p a ha)))
      grind
  obtain ⟨s', T', he', hT', m', hm'⟩ := insertFixup_spec fuel hnow (.red .nil .nil) hbal (by omega)
  have hkeys : inorder T' = before p ++ node :: after p := hT'.keys
  refine ⟨s', T', before p, after p, ?_, ⟨hT'.at_, m', hm'⟩, hK, hkeys, ?_, fun hw hs => ?_⟩
  · unfold rbInsert
    rw [h.at_.root]
    have he0 : rbLink cmp node fuel s (rootPtr [] (ptr T)) 0 .left = some (top p, sideOf p) := he
    simp only [he0, bind_eq_bind, bind_some, modify_of_ne h0, hs1]
    rw [← he']
    cases p with
    | nil => rfl
    | cons f p =>
      have hk := hp.at_.above_ne
      rw [show top (f :: p) = f.key from rfl, if_neg hk, modify_of_ne hk]
      rfl
  · rw [hkeys]
    exact hT'.same
  grind [hcmp.sorted]

theorem erase_end {s1 : RbHeap} {p : Path Nat} {d : Dir} {v : Rbt Nat} {c c' : Color} {z : Nat}
    (h : Now (inorder (plug p v)) s s1 p v) (hp : PathBal p c n)
    (hb : Balanced (Rbt.mk d c' z v .nil) c n) (hf : p.length < fuel) :
    ∃ s' T', (if decide (c' = .black) then deleteFixup fuel s1 (ptr v) (top p) else some s1) = some s' ∧
      RbOk s' T' ∧ inorder T' = inorder (plug p v) ∧ Same (inorder T') s s' := by
  obtain ⟨hred, hblack⟩ := removed_bal hp hb
  cases c' with
  | red =>
    exact ⟨s1, plug p v, rfl, ⟨at_plug.1 h.at_, hred rfl⟩, rfl, h.same⟩
  | black =>
    obtain ⟨hdel, hp'⟩ := hblack rfl
    obtain ⟨fuel, rfl⟩ : ∃ k, fuel = k + 1 := ⟨fuel - 1, by omega⟩
    obtain ⟨s', T', he, h', hb'⟩ := deleteFixup_spec fuel h hdel hp' fun _ => by omega
    have hk : inorder T' = inorder (plug p v) := h'.keys
    refine ⟨s', T', he, ⟨h'.at_, hb'⟩, hk, ?_⟩
    rw [hk]
    exact h'.same

theorem rbErase_spec (h : RbOk s T) {z : Nat} (hz : z ∈ inorder T) (hf : (inorder T).length < fuel) :
    ∃ s' T' xs ys, rbErase fuel s z = some s' ∧ RbOk s' T' ∧ inorder T = xs ++ z :: ys ∧
      inorder T' = xs ++ ys ∧ Same (inorder T') s s' := by
  obtain ⟨p, c, l, r, hT⟩ := exists_plug hz []
  rw [show plug [] T = T from rfl] at hT
  subst hT
  obtain ⟨m, hm⟩ := h.bal
  have hat : At s p (Rbt.mk .left c z l r) := at_plug.2 h.at_
  obtain ⟨c₁, k, hp, hb⟩ := PathBal.root.downPlug (n := m) (by simpa using hm)
  rw [append_nil] at hp
  have hlen : p.length < fuel := by
    have h1 := length_plug p (.node c l z r)
    omega
  have hkeys : inorder (plug p (.node c l z r)) =
      (before p ++ inorder l) ++ z :: (inorder r ++ after p) := by
    simp [inorder_plug, inorder]
  unfold rbErase
  simp only [load_of_ne hat.key_ok.1, hat.node, bind_eq_bind, bind_some]
  have houter : ∀ {d : Dir} {v : Rbt Nat}, At s p (Rbt.mk d c z v .nil) →
      Balanced (Rbt.mk d c z v .nil) c₁ k →
      ∃ s' T', ((eraseOuter d s z).bind fun r =>
          if r.2.1 then deleteFixup fuel r.1 r.2.2.1 r.2.2.2 else some r.1) = some s' ∧
        RbOk s' T' ∧ inorder T' = inorder (plug p v) ∧ Same (inorder T') s s' := by
    intro d v hv hbv
    obtain ⟨s1, e1, h1, hsame⟩ := transplant_at hv
    have hnow : Now (inorder (plug p v)) s s1 p v := by
      refine ⟨h1, rfl, hsame.mono fun a ha => (inorder_plug_perm p v).mem_iff.2 ?_⟩
      rcases mem_append.1 ha with ha | ha
      · exact mem_append.2 (.inl ha)
      · exact mem_append.2 (.inr (tops_subset p a ha))
    obtain ⟨s', T', e2, hok, hk, hs⟩ := erase_end hnow hp hbv hlen
    refine ⟨s', T', ?_, hok, hk, hs⟩
    unfold eraseOuter
    simp only [load_of_ne hv.key_ok.1, hv.node, cellOf_child, e1, bind_eq_bind,
      bind_some, cellOf_isBlack hv.top_even, cellOf_parent hv.top_even]
    exact e2
  by_cases hl : l = .nil
  · subst hl
    obtain ⟨s', T', he, hok, hk, hs⟩ := houter (d := .right) (v := r) hat hb
    refine ⟨s', T', before p, inorder r ++ after p, ?_, hok, by simpa [inorder] using hkeys, ?_, hs⟩
    · exact (if_pos rfl).trans he
    · rw [hk, inorder_plug, append_assoc]
  rw [if_neg (show ¬ (cellOf .left (top p) c (ptr l) (ptr r)).left = 0 from
    fun h0 => hl (hat.down.ptr_eq_zero.1 h0))]
  by_cases hr : r = .nil
  · subst hr
    obtain ⟨s', T', he, hok, hk, hs⟩ := houter (d := .left) (v := l) hat hb
    refine ⟨s', T', before p ++ inorder l, after p, ?_, hok, by simpa [inorder] using hkeys, ?_, hs⟩
    · exact (if_pos rfl).trans he
    · rw [hk, inorder_plug]
  have hrat : At s (⟨.right, c, z, l⟩ :: p) r := at_cons.2 hat
  rw [if_neg (show ¬ (cellOf .left (top p) c (ptr l) (ptr r)).right = 0 from
    fun h0 => hr (hrat.ptr_eq_zero.1 h0))]
  have hrlen : (inorder r).length ≤ fuel := by
    rw [hkeys] at hf
    simp only [length_append, length_cons] at hf
    omega
  obtain ⟨q, cy, y, v, ey, hrq, hq⟩ := leftmost_spec fuel hrat hr hrlen
  have hrkeys : inorder r = y :: inorder (plug q v) := by
    rw [hrq, inorder_plug, inorder_plug, before_left hq]
    simp [Rbt.mk, inorder]
  have hny : ∃ q₀, s.load y = some (cellOf .left q₀ cy 0 (ptr v)) ∧ q₀ % 2 = 0 := by
    rw [hrq] at hrat
    have hy := at_append.2 hrat
    exact ⟨_, by rw [load_of_ne hy.key_ok.1, hy.node]; rfl, hy.top_even⟩
  obtain ⟨qy, hny, hqy⟩ := hny
  have hsub : (inorder (Rbt.mk .left c y l (plug q v)) ++ pathKeys p).Sublist
      (inorder (Rbt.mk .left c z l r) ++ pathKeys p) := by
    refine List.Sublist.append_right ?_ _
    show (inorder l ++ y :: inorder (plug q v)).Sublist (inorder l ++ z :: inorder r)
    rw [hrkeys]
    exact (List.Sublist.refl _).append ((List.Sublist.refl _).cons _)
  have hzy : z ≠ y := by
    rintro rfl
    refine (nodup_mk.1 (nodup_append.1 hat.nodup).1).2.1 ?_
    rw [hrkeys]
    exact mem_cons_self ..
  have hat' := hat
  rw [hrq] at hat'
  obtain ⟨s1, s2, r₀, q₀, h₀, ed, h1, hroot, hsame, hy, hq₀, hR, hs2⟩ := detach_spec hat' hq
  obtain ⟨s3, et, h3, hs3⟩ := takeOver_at h1 hl hroot hsame hy hq₀ hR (hat.nodup.sublist hsub)
    (fun a ha => hat.addr a (hsub.subset ha)) hzy
  -- the hole is where the successor was
  have hplug : plug (q ++ ⟨.right, c, y, l⟩ :: p) v = plug p (Rbt.mk .left c y l (plug q v)) :=
    plug_append ..
  have hnow : Now (inorder (plug (q ++ ⟨.right, c, y, l⟩ :: p) v)) s s3
      (q ++ ⟨.right, c, y, l⟩ :: p) v := by
    refine ⟨at_append.2 (at_cons.2 h3), rfl, ?_⟩
    rw [hplug]
    have hmem : ∀ a, a ∈ inorder (Rbt.mk .left c y l (plug q v)) ++ pathKeys p →
        a ∈ inorder (plug p (Rbt.mk .left c y l (plug q v))) :=
      fun a => (inorder_plug_perm p _).mem_iff.2
    refine (hs2.mono fun a ha => hmem a ?_).trans (hs3.mono hmem)
    refine mem_append.2 (.inl (mem_inorder_mk.2 ?_))
    exact (mem_cons.1 ha).imp_right .inr
  obtain ⟨c₂, m₂, hp₂, hb₂⟩ := hp.down (d := .right) (Balanced.rekey (d := .right) hb y)
  rw [hrq] at hb₂
  obtain ⟨c₃, m₃, hp₃, hb₃⟩ := hp₂.downPlug hb₂
  have hlen' : (q ++ ⟨.right, c, y, l⟩ :: p).length < fuel := by
    have h1 := length_plug (q ++ ⟨.right, c, y, l⟩ :: p) v
    rw [hplug, inorder_plug] at h1
    rw [hkeys, hrkeys] at hf
    simp only [Rbt.mk, inorder, length_append, length_cons] at h1 hf ⊢
    omega
  obtain ⟨s', T', e4, hok, hk, hs⟩ := erase_end (d := .right) hnow hp₃ hb₃ hlen'
  refine ⟨s', T', before p ++ inorder l, inorder r ++ after p, ?_, hok, hkeys, ?_, hs⟩
  · unfold eraseInner
    simp only [load_of_ne hat.key_ok.1, hat.node, bind_eq_bind, bind_some, cellOf_right,
      ey, hny, ed, et, cellOf_isBlack hqy]
    exact e4
  grind [inorder_plug, Rbt.mk, inorder]

end Calls

/-! ## 6. Walking through the tree -/

/-- `for (n = rb_first(root); n; n = rb_next(n))`: the nodes met from `n` on. -/
def rbVisitFrom (fuel : Nat) (s : RbHeap) : Nat → Nat → Option (List Nat)
  | 0, _ => none
  | k + 1, n =>
    if n = 0 then some [] else do
      let m ← rbNext fuel s n
      let l ← rbVisitFrom fuel s k m
      some (n :: l)

def rbVisit (fuel : Nat) (s : RbHeap) : Option (List Nat) := do
  rbVisitFrom fuel s fuel (← rbFirst fuel s)

section Walk

variable {s : RbHeap} {p : Path Nat} {t l r T : Rbt Nat} {c : Color} {a fuel : Nat}

theorem leftmost_head (h : At s p t) (ht : t ≠ .nil) (hf : (inorder t).length ≤ fuel) :
    leftmost fuel s (ptr t) = some ((inorder t).headD 0) := by
  obtain ⟨q, c, y, r, he, rfl, hq⟩ := leftmost_spec fuel h ht hf
  rw [he, inorder_plug, before_left hq]
  rfl

theorem climb_spec (fuel : Nat) : ∀ {p : Path Nat} {t : Rbt Nat}, At s p t → t ≠ .nil →
    p.length < fuel → climb fuel s (ptr t) (top p) = some ((after p).headD 0) := by
  induction fuel with
  | zero => exact fun _ _ h => absurd h (by omega)
  | succ fuel ih =>
    intro p t h ht hf
    unfold climb
    cases p with
    | nil => rfl
    | cons f p =>
      have hnow : Now (inorder (plug (f :: p) t)) s s (f :: p) t := ⟨h, rfl, Same.refl _ s⟩
      have hne := hnow.ptr_ne (.inl ht)
      have hk := h.above_ne
      obtain ⟨d, c, k, o⟩ := f
      simp only [show top (⟨d, c, k, o⟩ :: p) = k from rfl, if_neg hk, load_of_ne hk, h.above,
        bind_eq_bind, bind_some]
      cases d with
      | left => exact if_neg hne
      | right =>
        have hup : At s p (Rbt.mk .right c k t o) := at_cons.1 h
        have hlen : p.length < fuel := by simpa using hf
        rw [if_pos (show ptr t = (cellOf .right (top p) c (ptr t) (ptr o)).right from rfl),
          cellOf_parent hup.top_even]
        have := ih hup (by simp [Rbt.mk]) hlen
        rwa [ptr_mk] at this

theorem rbNext_at (h : At s p (Rbt.mk .left c a l r)) (hr : (inorder r).length ≤ fuel)
    (hp : p.length < fuel) : rbNext fuel s a = some ((inorder r ++ after p).headD 0) := by
  have hrat : At s (⟨.right, c, a, l⟩ :: p) r := at_cons.2 h
  unfold rbNext
  simp only [load_of_ne h.key_ok.1, h.node, bind_eq_bind, bind_some]
  by_cases hnil : r = .nil
  · subst hnil
    rw [if_neg (by simp [cellOf, ptr]), cellOf_parent h.top_even]
    grind [climb_spec, Rbt.mk, ptr_mk, inorder]
  · have hr0 : ptr r ≠ 0 := fun e => hnil (hrat.ptr_eq_zero.1 e)
    rw [if_pos (show (cellOf .left (top p) c (ptr l) (ptr r)).right ≠ 0 from hr0)]
    have hhead := leftmost_head hrat hnil hr
    have hne : inorder r ≠ [] := ne_nil_of_mem (ptr_mem hr0)
    refine hhead.trans ?_
    obtain ⟨b, bs, hb⟩ := exists_cons_of_ne_nil hne
    rw [hb]
    rfl

section

variable (h : At s [] T) (hf : (inorder T).length < fuel)
include h hf

theorem rbNext_spec {xs ys : List Nat}
    (hT : inorder T = xs ++ a :: ys) : rbNext fuel s a = some (ys.headD 0) := by
  have hmem : a ∈ inorder T := by rw [hT]; simp
  obtain ⟨p, c, l, r, hp⟩ := exists_plug hmem []
  rw [show plug [] T = T from rfl] at hp
  subst hp
  have hnd : (inorder (plug p (.node c l a r))).Nodup := by
    have := h.nodup
    simpa [pathKeys] using this
  have hk : inorder (plug p (.node c l a r)) = (before p ++ inorder l) ++ a :: (inorder r ++ after p) := by
    simp [inorder_plug, inorder]
  have hlen := length_plug p (.node c l a r)
  simp only [inorder, length_append, length_cons] at hlen
  -- the key occurs once, so what follows it is what follows it
  have hys : ys = inorder r ++ after p := by
    rw [hT] at hk hnd
    have hx : a ∉ xs := fun hx => (nodup_append.1 hnd).2.2 a hx a (by simp) rfl
    have hy : a ∉ ys := (nodup_cons.1 (nodup_append.1 hnd).2.1).1
    exact ((append_cons_inj_of_notMem hx hy).1 hk).2.2
  rw [hys]
  exact rbNext_at (at_plug.2 h) (by omega) (by omega)

theorem rbFirst_spec : rbFirst fuel s = some ((inorder T).headD 0) := by
  unfold rbFirst
  have hroot : s.root = ptr T := h.root
  by_cases hnil : T = .nil
  · subst hnil
    rw [hroot]
    rfl
  · rw [hroot, if_neg fun e => hnil (h.ptr_eq_zero.1 e)]
    exact leftmost_head h hnil (by omega)

theorem rbVisit_spec : rbVisit fuel s = some (inorder T) := by
  have hwalk : ∀ ys xs k, inorder T = xs ++ ys → ys.length < k →
      rbVisitFrom fuel s k (ys.headD 0) = some ys := by
    intro ys
    induction ys with
    | nil =>
      intro xs k _ hk
      obtain ⟨k, rfl⟩ : ∃ j, k = j + 1 := ⟨k - 1, by omega⟩
      rfl
    | cons a ys ih =>
      intro xs k hT hk
      obtain ⟨k, rfl⟩ : ∃ j, k = j + 1 := ⟨k - 1, by omega⟩
      have ha : a ≠ 0 := (h.ok a (by rw [hT]; simp)).1
      unfold rbVisitFrom
      simp only [headD_cons, if_neg ha, rbNext_spec h hf hT, bind_eq_bind, bind_some]
      simp only [length_cons] at hk
      rw [ih (xs ++ [a]) k (by rw [hT]; simp) (by omega)]
      rfl
  unfold rbVisit
  rw [rbFirst_spec h hf]
  exact hwalk (inorder T) [] fuel rfl hf

end

end Walk

/-! ## 7. Histories -/

inductive RbOp where
  | insert (node : Nat)
  | erase (node : Nat)

/-- The nodes in the tree after a call, by what was inserted and not erased. -/
def RbOp.live (L : List Nat) : RbOp → List Nat
  | .insert node => node :: L
  | .erase node => L.erase node

/-- A node that is inserted is not in the tree, one that is erased is. A node is an address that
    leaves the lowest bit free. -/
def RbOp.Legal (L : List Nat) : RbOp → Prop
  | .insert node => node ∉ L ∧ node ≠ 0 ∧ node % 2 = 0
  | .erase node => node ∈ L

/-- The nodes inserted and not erased by a history. -/
def liveNodes : List Nat → List RbOp → List Nat
  | L, [] => L
  | L, op :: ops => liveNodes (op.live L) ops

def LegalOps : List Nat → List RbOp → Prop
  | _, [] => True
  | L, op :: ops => op.Legal L ∧ LegalOps (op.live L) ops

def rbCall (fuel : Nat) (cmp : Nat → Nat → Int) (s : RbHeap) : RbOp → Option RbHeap
  | .insert node => rbInsert fuel cmp s node
  | .erase node => rbErase fuel s node

/-- The calls of a history one after the other. -/
def rbRun (fuel : Nat) (cmp : Nat → Nat → Int) : RbHeap → List RbOp → Option RbHeap
  | s, [] => some s
  | s, op :: ops => do rbRun fuel cmp (← rbCall fuel cmp s op) ops

/-- **The laws of the tree** with the nodes `L`. -/
structure RbLaws (fuel : Nat) (cmp : Nat → Nat → Int) (L : List Nat) (s : RbHeap) (T : Rbt Nat) :
    Prop where
  /-- every node has the address of its parent, its colour and the addresses of its children -/
  memory : At s [] T
  rootBlack : T.color = .black
  noRedRed : NoRedRed T
  blackCounts : ∃ n, ∀ k ∈ blackCounts T, k = n
  sorted : Sorted (cmpLt cmp) (inorder T)
  nodes : (inorder T).Perm L
  visit : rbVisit fuel s = some (inorder T)

section History

variable {fuel : Nat} {cmp : Nat → Nat → Int}

theorem rbCall_spec (hw : StrictWeak (cmpLt cmp)) {s : RbHeap} {T : Rbt Nat} {L : List Nat}
    (h : RbOk s T) (hs : Sorted (cmpLt cmp) (inorder T)) (hL : (inorder T).Perm L) {op : RbOp}
    (hop : op.Legal L) (hf : L.length < fuel) :
    ∃ s' T', rbCall fuel cmp s op = some s' ∧ RbOk s' T' ∧ Sorted (cmpLt cmp) (inorder T') ∧
      (inorder T').Perm (op.live L) := by
  rw [← hL.length_eq] at hf
  cases op with
  | insert node =>
    obtain ⟨hnew, h0, h2⟩ := hop
    obtain ⟨s', T', xs, ys, he, hok, hT, hT', -, hsort⟩ := rbInsert_spec h h0 h2
      (fun hm => hnew (hL.mem_iff.1 hm)) hf
    refine ⟨s', T', he, hok, hsort hw hs, ?_⟩
    rw [hT']
    rw [hT] at hL
    exact perm_middle.trans (hL.cons node)
  | erase node =>
    obtain ⟨s', T', xs, ys, he, hok, hT, hT', -⟩ := rbErase_spec h (hL.mem_iff.2 hop) hf
    have hsub : (inorder T').Sublist (inorder T) := by
      rw [hT, hT']
      exact (List.Sublist.refl _).append ((List.Sublist.refl _).cons _)
    refine ⟨s', T', he, hok, List.Pairwise.sublist hsub hs, ?_⟩
    rw [hT']
    rw [hT] at hL
    have := (perm_middle.symm.trans hL).erase node
    rwa [erase_cons_head] at this

theorem length_live (L : List Nat) (op : RbOp) : (op.live L).length ≤ L.length + 1 := by
  cases op with
  | insert node => simp [RbOp.live]
  | erase node => exact Nat.le_succ_of_le (length_erase_le ..)

theorem rbRun_spec (hw : StrictWeak (cmpLt cmp)) : ∀ (ops : List RbOp) {s : RbHeap} {T : Rbt Nat}
    {L : List Nat}, RbOk s T → Sorted (cmpLt cmp) (inorder T) → (inorder T).Perm L → LegalOps L ops →
    L.length + ops.length < fuel →
    ∃ s' T', rbRun fuel cmp s ops = some s' ∧ RbOk s' T' ∧ Sorted (cmpLt cmp) (inorder T') ∧
      (inorder T').Perm (liveNodes L ops) ∧ (liveNodes L ops).length < fuel := by
  intro ops
  induction ops with
  | nil => exact fun h hs hL _ hf => ⟨_, _, rfl, h, hs, hL, by simpa [liveNodes] using hf⟩
  | cons op ops ih =>
    intro s T L h hs hL hops hf
    simp only [length_cons] at hf
    obtain ⟨s1, T1, he, h1, hs1, hL1⟩ := rbCall_spec hw h hs hL hops.1 (show L.length < fuel by omega)
    have hlen := length_live L op
    obtain ⟨s', T', he', h'⟩ := ih h1 hs1 hL1 hops.2 (by omega)
    refine ⟨s', T', ?_, h'⟩
    unfold rbRun
    rw [he]
    exact he'

/-- **The red-black tree**: every history of insertions of new nodes and erasures of nodes in the
    tree, from an empty root and under any strict weak order, comes to its end and leaves a
    red-black tree of exactly the nodes inserted and not erased, in order. -/
theorem rbtree_history (cmp : Nat → Nat → Int) (hw : StrictWeak (cmpLt cmp)) (s : RbHeap)
    (hs : s.root = 0) (ops : List RbOp) (hops : LegalOps [] ops) (fuel : Nat) (hf : ops.length < fuel) :
    ∃ s' T, rbRun fuel cmp s ops = some s' ∧ RbLaws fuel cmp (liveNodes [] ops) s' T := by
  have h0 : RbOk s .nil := ⟨⟨hs, nofun, nofun, nodup_nil, nofun⟩, 0, .nil⟩
  obtain ⟨s', T, he, hok, hsort, hperm, hlen⟩ := rbRun_spec hw ops h0 List.Pairwise.nil
    (L := []) (List.Perm.refl _) hops (by simpa using hf)
  obtain ⟨m, hm⟩ := hok.bal
  exact ⟨s', T, he, hok.at_, hm.color, hm.noRedRed, ⟨m, hm.blackCounts⟩, hsort, hperm,
    rbVisit_spec hok.at_ (by rw [hperm.length_eq]; exact hlen)⟩

end History

/-- Addresses compared as numbers. -/
def addrCmp (a b : Nat) : Int := (a : Int) - b

theorem addrCmp_strictWeak : StrictWeak (cmpLt addrCmp) := by
  refine ⟨fun a h => ?_, fun a b c h1 h2 => ?_, fun a b c h => ?_⟩ <;>
    simp only [cmpLt, addrCmp] at * <;> omega

theorem rbtree_history_three : ∃ s' T,
    rbRun 5 addrCmp ⟨fun _ => {}, 0⟩ [.insert 2, .insert 6, .insert 4, .erase 2] = some s' ∧
      RbLaws 5 addrCmp [4, 6] s' T :=
  rbtree_history addrCmp addrCmp_strictWeak ⟨fun _ => {}, 0⟩ rfl
    [.insert 2, .insert 6, .insert 4, .erase 2] (by simp [LegalOps, RbOp.Legal, RbOp.live]) 5 (by decide)

end Kobalt.Kern
