/-
  Subject: RED-BLACK TREES AND PATHS INTO THEM, over any type of keys and in both directions at
  once: what is true of the left side is stated for a side `d`.
-/
import Mathlib.Data.List.Basic
import Mathlib.Data.List.Perm.Basic
import Mathlib.Data.List.Nodup

namespace Kobalt.Rb

open List

variable {α : Type*}

/-! ## 1. Trees and paths -/

inductive Color where
  | red | black
  deriving DecidableEq, Repr

inductive Dir where
  | left | right
  deriving DecidableEq, Repr

/-- The other side. -/
def Dir.opp : Dir → Dir
  | .left => .right
  | .right => .left

@[simp] theorem Dir.opp_opp (d : Dir) : d.opp.opp = d := by cases d <;> rfl

inductive Rbt (α : Type*) where
  | nil
  | node (c : Color) (l : Rbt α) (a : α) (r : Rbt α)

/-- The node with the child `s` on side `d` and `o` on the other. -/
def Rbt.mk (d : Dir) (c : Color) (a : α) (s o : Rbt α) : Rbt α :=
  match d with
  | .left => .node c s a o
  | .right => .node c o a s

theorem Rbt.mk_opp (d : Dir) (c : Color) (a : α) (s o : Rbt α) :
    Rbt.mk d.opp c a s o = Rbt.mk d c a o s := by cases d <;> rfl

/-- Every node has a child on side `d`. -/
theorem Rbt.exists_mk (d : Dir) {t : Rbt α} (h : t ≠ .nil) : ∃ c a s o, t = Rbt.mk d c a s o := by
  cases t with
  | nil => exact absurd rfl h
  | node c l a r =>
    cases d with
    | left => exact ⟨c, a, l, r, rfl⟩
    | right => exact ⟨c, a, r, l, rfl⟩

/-- The keys from left to right. -/
def inorder : Rbt α → List α
  | .nil => []
  | .node _ l a r => inorder l ++ a :: inorder r

/-- One step up: the node above, the side its hole is on, and its other child. -/
structure Frame (α : Type*) where
  dir : Dir
  color : Color
  key : α
  other : Rbt α

/-- The way up to the root, the nearest node first. -/
abbrev Path (α : Type*) := List (Frame α)

def Frame.fill (f : Frame α) (t : Rbt α) : Rbt α := Rbt.mk f.dir f.color f.key t f.other

/-- The whole tree. -/
def plug : Path α → Rbt α → Rbt α
  | [], t => t
  | f :: p, t => plug p (f.fill t)

/-- The keys to the left of the hole. -/
def before : Path α → List α
  | [] => []
  | ⟨.left, _, _, _⟩ :: p => before p
  | ⟨.right, _, a, o⟩ :: p => before p ++ (inorder o ++ [a])

/-- The keys to the right of the hole. -/
def after : Path α → List α
  | [] => []
  | ⟨.left, _, a, o⟩ :: p => (a :: inorder o) ++ after p
  | ⟨.right, _, _, _⟩ :: p => after p

theorem inorder_plug (p : Path α) (t : Rbt α) : inorder (plug p t) = before p ++ inorder t ++ after p := by
  induction p generalizing t with
  | nil => simp [plug, before, after]
  | cons f p ih =>
    obtain ⟨d, c, a, o⟩ := f
    cases d <;> simp [plug, Frame.fill, Rbt.mk, ih, inorder, before, after]

theorem before_left {p : Path α} (h : ∀ f ∈ p, f.dir = .left) : before p = [] := by
  induction p with
  | nil => rfl
  | cons f p ih =>
    obtain ⟨d, c, a, o⟩ := f
    obtain rfl : d = .left := h _ (mem_cons_self ..)
    exact ih fun g hg => h g (mem_cons_of_mem _ hg)

theorem plug_append (p q : Path α) (t : Rbt α) : plug (p ++ q) t = plug q (plug p t) := by
  induction p generalizing t with
  | nil => rfl
  | cons f p ih => exact ih _

theorem plug_ne_nil (p : Path α) {t : Rbt α} (h : t ≠ .nil) : plug p t ≠ .nil := by
  induction p generalizing t with
  | nil => exact h
  | cons f p ih =>
    refine ih ?_
    unfold Frame.fill
    cases f.dir <;> simp [Rbt.mk]

theorem exists_plug {t : Rbt α} {a : α} (h : a ∈ inorder t) (p : Path α) :
    ∃ q c l r, plug p t = plug q (.node c l a r) := by
  induction t generalizing p with
  | nil => cases h
  | node c l b r ihl ihr =>
    simp only [inorder, mem_append, mem_cons] at h
    rcases h with h | rfl | h
    · exact ihl h (⟨.left, c, b, r⟩ :: p)
    · exact ⟨p, c, l, r, rfl⟩
    · exact ihr h (⟨.right, c, b, l⟩ :: p)

/-- **A rotation keeps the order.** -/
theorem inorder_rotate (d : Dir) (c c' e e' : Color) (x y : α) (A B C : Rbt α) :
    inorder (Rbt.mk d c' y (Rbt.mk d c x A B) C) = inorder (Rbt.mk d e x A (Rbt.mk d e' y B C)) := by
  cases d <;> simp [Rbt.mk, inorder]

theorem inorder_mk_congr (d : Dir) (c c' : Color) (a : α) {s s' o o' : Rbt α}
    (hs : inorder s = inorder s') (ho : inorder o = inorder o') :
    inorder (Rbt.mk d c a s o) = inorder (Rbt.mk d c' a s' o') := by
  cases d <;> simp [Rbt.mk, inorder, hs, ho]

theorem mem_inorder_mk {d : Dir} {c : Color} {a x : α} {s o : Rbt α} :
    x ∈ inorder (Rbt.mk d c a s o) ↔ x = a ∨ x ∈ inorder s ∨ x ∈ inorder o := by
  cases d <;> simp only [Rbt.mk, inorder, mem_append, mem_cons] <;> tauto

/-- All keys of a path, in some order. -/
def pathKeys : Path α → List α
  | [] => []
  | f :: p => f.key :: (inorder f.other ++ pathKeys p)

theorem inorder_mk_perm (d : Dir) (c : Color) (a : α) (s o : Rbt α) :
    (inorder (Rbt.mk d c a s o)).Perm (inorder s ++ (a :: inorder o)) := by
  cases d with
  | left => exact List.Perm.refl _
  | right =>
    show (inorder o ++ a :: inorder s).Perm _
    exact perm_middle.trans ((perm_append_comm.cons a).trans perm_middle.symm)

theorem inorder_plug_perm (p : Path α) (t : Rbt α) : (inorder (plug p t)).Perm (inorder t ++ pathKeys p) := by
  induction p generalizing t with
  | nil => simp [plug, pathKeys]
  | cons f p ih =>
    refine (ih _).trans (((inorder_mk_perm ..).append_right _).trans ?_)
    simp [pathKeys]

theorem nodup_mk {d : Dir} {c : Color} {a : α} {s o : Rbt α} :
    (inorder (Rbt.mk d c a s o)).Nodup ↔ a ∉ inorder s ∧ a ∉ inorder o ∧ (inorder s).Nodup ∧
      (inorder o).Nodup ∧ ∀ x ∈ inorder s, x ∉ inorder o := by
  rw [(inorder_mk_perm d c a s o).nodup_iff, nodup_append, nodup_cons]
  grind

theorem length_le_pathKeys (p : Path α) : p.length ≤ (pathKeys p).length := by
  induction p with
  | nil => exact Nat.le_refl _
  | cons f p ih => grind [pathKeys]

theorem length_plug (p : Path α) (t : Rbt α) : (inorder t).length + p.length ≤ (inorder (plug p t)).length := by
  rw [(inorder_plug_perm p t).length_eq, length_append]
  exact Nat.add_le_add_left (length_le_pathKeys p) _

/-! ## 2. Order -/

section Order

variable {lt : α → α → Prop}

/-- What a comparison has to satisfy for a tree to keep its keys in order. -/
structure StrictWeak (lt : α → α → Prop) : Prop where
  irrefl : ∀ a, ¬ lt a a
  trans : ∀ a b c, lt a b → lt b c → lt a c
  negTrans : ∀ a b c, lt a c → lt a b ∨ lt b c

/-- The keys are in order. -/
def Sorted (lt : α → α → Prop) (l : List α) : Prop := l.Pairwise fun a b => ¬ lt b a

/-- The way down to the place of `x`: left where `x` is less. -/
def PathCmp (lt : α → α → Prop) (x : α) (p : Path α) : Prop :=
  ∀ f ∈ p, f.dir = .left ↔ lt x f.key

/-- **The place of `x` in the order.** -/
theorem PathCmp.bounds (hlt : StrictWeak lt) {x : α} {p : Path α} (hp : PathCmp lt x p)
    (hs : Sorted lt (before p ++ after p)) : (∀ a ∈ before p, ¬ lt x a) ∧ ∀ a ∈ after p, lt x a := by
  induction p with
  | nil => exact ⟨nofun, nofun⟩
  | cons f p ih =>
    obtain ⟨d, c, k, o⟩ := f
    have hk := hp ⟨d, c, k, o⟩ (mem_cons_self ..)
    have hp' : PathCmp lt x p := fun g hg => hp g (mem_cons_of_mem _ hg)
    cases d with
    | left =>
      simp only [before, after, Sorted, cons_append] at hs ⊢
      obtain ⟨h1, h2⟩ := ih hp' (hs.sublist ((List.Sublist.refl _).append ((sublist_append_right ..).cons _)))
      have hkx : lt x k := hk.1 rfl
      have hrel := (pairwise_append.1 hs).2.1
      refine ⟨h1, fun a ha => ?_⟩
      rcases mem_cons.1 ha with rfl | ha
      · exact hkx
      · exact (hlt.negTrans x a k hkx).resolve_right ((pairwise_cons.1 hrel).1 a ha)
    | right =>
      simp only [before, after, Sorted] at hs ⊢
      obtain ⟨h1, h2⟩ := ih hp' (hs.sublist ((sublist_append_left ..).append (List.Sublist.refl _)))
      grind [hlt.negTrans]

/-- **A key put into its place.** -/
theorem PathCmp.sorted (hlt : StrictWeak lt) {x : α} {p : Path α} (hp : PathCmp lt x p)
    (hs : Sorted lt (before p ++ after p)) : Sorted lt (before p ++ x :: after p) := by
  obtain ⟨h1, h2⟩ := hp.bounds hlt hs
  obtain ⟨ha, hb, hab⟩ := pairwise_append.1 hs
  refine pairwise_append.2 ⟨ha, pairwise_cons.2 ⟨fun b hb' hlt' => ?_, hb⟩, ?_⟩
  · exact hlt.irrefl x (hlt.trans x b x (h2 b hb') hlt')
  grind

end Order

/-! ## 3. Balance -/

/-- **Balance**: the root has colour `c`, no red node has a red child, and every path to a leaf
    meets `n` black nodes. -/
inductive Balanced : Rbt α → Color → Nat → Prop
  | nil : Balanced .nil .black 0
  | red {l r : Rbt α} {a : α} {n : Nat} : Balanced l .black n → Balanced r .black n →
      Balanced (.node .red l a r) .red n
  | black {l r : Rbt α} {a : α} {c₁ c₂ : Color} {n : Nat} : Balanced l c₁ n → Balanced r c₂ n →
      Balanced (.node .black l a r) .black (n + 1)

/-- The colour of the root; a leaf counts as black. -/
def Rbt.color : Rbt α → Color
  | .nil => .black
  | .node c _ _ _ => c

@[simp] theorem Rbt.color_mk (d : Dir) (c : Color) (a : α) (s o : Rbt α) :
    (Rbt.mk d c a s o).color = c := by cases d <;> rfl

/-- The root painted black. -/
def Rbt.blacken : Rbt α → Rbt α
  | .nil => .nil
  | .node _ l a r => .node .black l a r

theorem Rbt.blacken_mk (d : Dir) (c : Color) (a : α) (s o : Rbt α) :
    (Rbt.mk d c a s o).blacken = Rbt.mk d .black a s o := by cases d <;> rfl

/-- No red node has a red child. -/
def NoRedRed : Rbt α → Prop
  | .nil => True
  | .node c l _ r => (c = .red → l.color = .black ∧ r.color = .black) ∧ NoRedRed l ∧ NoRedRed r

/-- The number of black nodes on each path from the root to a leaf. -/
def blackCounts : Rbt α → List Nat
  | .nil => [0]
  | .node c l _ r => (blackCounts l ++ blackCounts r).map fun k => if c = .black then k + 1 else k

section Balance

variable {t : Rbt α} {c c' : Color} {n : Nat} {d : Dir} {a : α} {s o : Rbt α}

theorem Balanced.color (h : Balanced t c n) : t.color = c := by cases h <;> rfl

theorem Balanced.noRedRed (h : Balanced t c n) : NoRedRed t := by
  induction h with
  | nil => trivial
  | red hl hr ihl ihr => exact ⟨fun _ => ⟨hl.color, hr.color⟩, ihl, ihr⟩
  | black _ _ ihl ihr => exact ⟨nofun, ihl, ihr⟩

theorem Balanced.blackCounts (h : Balanced t c n) : ∀ k ∈ blackCounts t, k = n := by
  induction h with
  | nil => intro k hk; simpa [Rb.blackCounts] using hk
  | red _ _ ihl ihr => grind [Rb.blackCounts]
  | black _ _ ihl ihr => grind [Rb.blackCounts]

theorem balanced_mk_red (hs : Balanced s .black n) (ho : Balanced o .black n) :
    Balanced (Rbt.mk d .red a s o) .red n := by
  cases d with
  | left => exact .red hs ho
  | right => exact .red ho hs

theorem balanced_mk_black {c₁ c₂ : Color} (hs : Balanced s c₁ n) (ho : Balanced o c₂ n) :
    Balanced (Rbt.mk d .black a s o) .black (n + 1) := by
  cases d with
  | left => exact .black hs ho
  | right => exact .black ho hs

theorem Balanced.mk_red (h : Balanced (Rbt.mk d .red a s o) c n) :
    c = .red ∧ Balanced s .black n ∧ Balanced o .black n := by
  cases d with
  | left => cases h with | red hl hr => exact ⟨rfl, hl, hr⟩
  | right => cases h with | red hl hr => exact ⟨rfl, hr, hl⟩

theorem Balanced.exists_red (d : Dir) (h : Balanced t .red n) :
    ∃ a s o, t = Rbt.mk d .red a s o ∧ Balanced s .black n ∧ Balanced o .black n := by
  obtain ⟨c, a, s, o, rfl⟩ := Rbt.exists_mk d (t := t) (by rintro rfl; cases h)
  obtain rfl : c = .red := by simpa using h.color
  exact ⟨a, s, o, rfl, h.mk_red.2⟩

theorem Balanced.mk_black (h : Balanced (Rbt.mk d .black a s o) c n) :
    c = .black ∧ ∃ m c₁ c₂, n = m + 1 ∧ Balanced s c₁ m ∧ Balanced o c₂ m := by
  cases d with
  | left => cases h with | black hl hr => exact ⟨rfl, _, _, _, rfl, hl, hr⟩
  | right => cases h with | black hl hr => exact ⟨rfl, _, _, _, rfl, hr, hl⟩

theorem Balanced.rekey (h : Balanced (Rbt.mk d c a s o) c' n) (b : α) : Balanced (Rbt.mk d c b s o) c' n := by
  cases d <;> cases h with
  | red hl hr => exact .red hl hr
  | black hl hr => exact .black hl hr

theorem Balanced.ne_nil (h : Balanced t c (n + 1)) : t ≠ .nil := by rintro rfl; cases h

theorem Balanced.blacken_red (h : Balanced t .red n) : Balanced t.blacken .black (n + 1) := by
  cases h with | red hl hr => exact .black hl hr

theorem Balanced.blacken (h : Balanced t c n) : ∃ m, Balanced t.blacken .black m := by
  cases c with
  | red => exact ⟨_, h.blacken_red⟩
  | black =>
    cases h with
    | nil => exact ⟨_, .nil⟩
    | black hl hr => exact ⟨_, .black hl hr⟩

end Balance

/-- **A path whose hole takes a tree balanced with `c` and `n`**; the tree around it has a black
    root. -/
inductive PathBal : Path α → Color → Nat → Prop
  | root {n : Nat} : PathBal [] .black n
  | red {d : Dir} {a : α} {o : Rbt α} {p : Path α} {n : Nat} : Balanced o .black n →
      PathBal p .red n → PathBal (⟨d, .red, a, o⟩ :: p) .black n
  | black {d : Dir} {a : α} {o : Rbt α} {p : Path α} {n : Nat} {c c₂ : Color} : Balanced o c₂ n →
      PathBal p .black (n + 1) → PathBal (⟨d, .black, a, o⟩ :: p) c n

section PathBal

variable {p : Path α} {t : Rbt α} {c : Color} {n : Nat}

/-- **Filling the hole.** -/
theorem PathBal.plug (hp : PathBal p c n) (ht : Balanced t c n) : ∃ m, Balanced (plug p t) .black m := by
  induction hp generalizing t with
  | root => exact ⟨_, ht⟩
  | red ho _ ih => exact ih (balanced_mk_red ht ho)
  | black ho _ ih => exact ih (balanced_mk_black ht ho)

theorem PathBal.other {f : Frame α} (h : PathBal (f :: p) c n) : ∃ c', Balanced f.other c' n := by
  cases h with
  | red ho _ => exact ⟨_, ho⟩
  | black ho _ => exact ⟨_, ho⟩

theorem PathBal.of_red (h : PathBal p .red n) : PathBal p c n := by
  cases h with | black ho hp => exact .black ho hp

theorem PathBal.down {d : Dir} {a : α} {s o : Rbt α} {c' : Color} (hp : PathBal p c n)
    (h : Balanced (Rbt.mk d c' a s o) c n) : ∃ c₁ m, PathBal (⟨d, c', a, o⟩ :: p) c₁ m ∧ Balanced s c₁ m := by
  cases c' with
  | red =>
    obtain ⟨rfl, hs, ho⟩ := h.mk_red
    exact ⟨_, _, .red ho hp, hs⟩
  | black =>
    obtain ⟨rfl, m, c₁, c₂, rfl, hs, ho⟩ := h.mk_black
    exact ⟨_, _, .black ho hp, hs⟩

theorem PathBal.downPlug {q : Path α} (hp : PathBal p c n) (h : Balanced (Rb.plug q t) c n) :
    ∃ c₁ m, PathBal (q ++ p) c₁ m ∧ Balanced t c₁ m := by
  induction q generalizing t with
  | nil => exact ⟨c, n, hp, h⟩
  | cons f q ih =>
    obtain ⟨c₁, m, hq, hf⟩ := ih h
    exact hq.down hf

end PathBal

end Kobalt.Rb
