/-
  Subject: TREES OF NAMED NODES: every node has a list of named children, and everything hangs under
  one root by exactly one name.
-/
import Mathlib.Data.List.Nodup
import Mathlib.Logic.Function.Basic

namespace Kobalt

open Function List

/-- Nodes, and the named children of each of them. -/
structure NameTree (α β : Type*) where
  root : α
  nodes : List α
  kids : α → List (β × α)

namespace NameTree

variable {α β : Type*}

/-- What can be reached from the root. -/
inductive Below (t : NameTree α β) : α → Prop where
  | root : Below t t.root
  | kid {a b : α} {n : β} (ha : Below t a) (hb : (n, b) ∈ t.kids a) : Below t b

/-- **A tree under the root**: every other node is named once and is reached from it. -/
structure Ok (t : NameTree α β) : Prop where
  nodup : t.nodes.Nodup
  root : t.root ∈ t.nodes
  kid : ∀ a ∈ t.nodes, ∀ x ∈ t.kids a, x.2 ∈ t.nodes ∧ x.2 ≠ t.root
  once : ∀ a ∈ t.nodes, ∀ a' ∈ t.nodes, ∀ n n' b, (n, b) ∈ t.kids a → (n', b) ∈ t.kids a' → a = a' ∧ n = n'
  names : ∀ a ∈ t.nodes, ((t.kids a).map Prod.fst).Nodup
  below : ∀ a ∈ t.nodes, t.Below a

variable {t : NameTree α β} {a b : α} {n : β}

theorem Ok.mem_of_below (h : t.Ok) (hb : t.Below b) : b ∈ t.nodes := by
  induction hb with
  | root => exact h.root
  | kid _ hb ih => exact (h.kid _ ih _ hb).1

theorem Ok.kid_unique (h : t.Ok) (ha : a ∈ t.nodes) {b' : α} (hb : (n, b) ∈ t.kids a) (hb' : (n, b') ∈ t.kids a) :
    b = b' := by
  have := inj_on_of_nodup_map (h.names a ha) hb hb' rfl
  exact congrArg Prod.snd this

/-- **Every node but the root is named**, and by one name of one node only. -/
theorem Ok.named (h : t.Ok) (hb : b ∈ t.nodes) (hr : b ≠ t.root) : ∃ a ∈ t.nodes, ∃ n, (n, b) ∈ t.kids a ∧
      ∀ a' ∈ t.nodes, ∀ n', (n', b) ∈ t.kids a' → a' = a ∧ n' = n := by
  cases h.below b hb with
  | root => exact absurd rfl hr
  | @kid a _ n ha hk => grind [h.mem_of_below, h.once]

/-! ## A node more -/

section Add

variable [DecidableEq α]

def add (t : NameTree α β) (a : α) (n : β) (b : α) : NameTree α β where
  root := t.root
  nodes := b :: t.nodes
  kids := update (update t.kids b []) a ((n, b) :: t.kids a)

theorem add_kids_of_ne {c : α} (hc : c ≠ a) (hcb : c ≠ b) : (t.add a n b).kids c = t.kids c := by
  simp [add, hc, hcb]

@[simp] theorem add_kids_self : (t.add a n b).kids a = (n, b) :: t.kids a := by simp [add]

theorem add_kids_new (hab : a ≠ b) : (t.add a n b).kids b = [] := by
  simp [add, hab.symm]

/-- **A new node under a free name.** -/
theorem Ok.add (h : t.Ok) (ha : a ∈ t.nodes) (hb : b ∉ t.nodes) (hn : n ∉ (t.kids a).map Prod.fst) :
    (t.add a n b).Ok := by
  have hab : a ≠ b := fun he => hb (he ▸ ha)
  -- the entries are the old ones and the new one
  have hkids : ∀ c ∈ (t.add a n b).nodes, ∀ m d, (m, d) ∈ (t.add a n b).kids c →
      (c = a ∧ m = n ∧ d = b) ∨ (c ∈ t.nodes ∧ (m, d) ∈ t.kids c) := by
    intro c hc m d hd
    by_cases hca : c = a
    · subst hca
      rw [add_kids_self, mem_cons, Prod.mk.injEq] at hd
      grind
    · by_cases hcb : c = b
      · grind [add_kids_new]
      · rw [add_kids_of_ne hca hcb] at hd
        exact .inr ⟨(mem_cons.mp hc).resolve_left hcb, hd⟩
  have hbelow : ∀ c, t.Below c → (t.add a n b).Below c := by
    intro c hc
    induction hc with
    | root => exact .root
    | @kid c d m hc hd ih =>
      refine .kid ih (n := m) ?_
      by_cases hca : c = a
      · grind [add_kids_self]
      · by_cases hcb : c = b
        · exact absurd (hcb ▸ h.mem_of_below hc) hb
        grind [add_kids_of_ne]
  refine ⟨nodup_cons.mpr ⟨hb, h.nodup⟩, mem_cons_of_mem _ h.root, ?_, ?_, ?_, ?_⟩
  · rintro c hc ⟨m, d⟩ hd
    rcases hkids c hc m d hd with ⟨-, -, rfl⟩ | ⟨hc', hd'⟩
    · exact ⟨mem_cons_self, fun he : d = t.root => hb (he ▸ h.root)⟩
    · exact ⟨mem_cons_of_mem _ (h.kid c hc' _ hd').1, (h.kid c hc' _ hd').2⟩
  · intro c hc c' hc' m m' d hd hd'
    rcases hkids c hc m d hd with ⟨rfl, rfl, rfl⟩ | ⟨h1, h2⟩ <;>
      rcases hkids c' hc' m' _ hd' with ⟨rfl, rfl, h5⟩ | ⟨h3, h4⟩
    · exact ⟨rfl, rfl⟩
    · exact absurd (h.kid c' h3 _ h4).1 hb
    · exact absurd (h.kid c h1 _ h2).1 (h5 ▸ hb)
    · exact h.once c h1 c' h3 m m' d h2 h4
  · intro c hc
    by_cases hca : c = a
    · grind [add_kids_self, h.names]
    · by_cases hcb : c = b
      · grind [add_kids_new]
      · rw [add_kids_of_ne hca hcb]
        exact h.names c ((mem_cons.mp hc).resolve_left hcb)
  · intro c hc
    rcases mem_cons.mp hc with rfl | hc
    · exact .kid (hbelow a (h.below a ha)) (n := n) (by rw [add_kids_self]; exact mem_cons_self)
    · exact hbelow c (h.below c hc)

end Add

/-! ## A node less -/

section Remove

variable [DecidableEq α] [DecidableEq β]

def remove (t : NameTree α β) (a : α) (n : β) (b : α) : NameTree α β where
  root := t.root
  nodes := t.nodes.erase b
  kids := update t.kids a ((t.kids a).erase (n, b))

theorem remove_kids_of_ne {c : α} (hc : c ≠ a) : (t.remove a n b).kids c = t.kids c := update_of_ne hc _ _

@[simp] theorem remove_kids_self : (t.remove a n b).kids a = (t.kids a).erase (n, b) := update_self ..

theorem remove_kids_middle {k₁ k₂ : List (β × α)} (hk : t.kids a = k₁ ++ (n, b) :: k₂) (hn : (n, b) ∉ k₁) :
    (t.remove a n b).kids a = k₁ ++ k₂ := by
  rw [remove_kids_self, hk, erase_append_right _ hn, erase_cons_head]

theorem mem_kids_of_remove {c : α} {x : β × α} (hx : x ∈ (t.remove a n b).kids c) : x ∈ t.kids c := by
  by_cases hca : c = a
  · grind [remove_kids_self]
  · rwa [remove_kids_of_ne hca] at hx

/-- **A node without children is taken away.** -/
theorem Ok.remove (h : t.Ok) (ha : a ∈ t.nodes) (hb : (n, b) ∈ t.kids a) (hk : t.kids b = []) :
    (t.remove a n b).Ok := by
  have hroot : b ≠ t.root := (h.kid a ha _ hb).2
  have hnodes : ∀ c, c ∈ (t.remove a n b).nodes ↔ c ≠ b ∧ c ∈ t.nodes := fun c => h.nodup.mem_erase_iff
  have hndKids : (t.kids a).Nodup := (h.names a ha).of_map
  -- `b` is named by no other entry
  have hgone : ∀ c ∈ t.nodes, ∀ m, (m, b) ∉ (t.remove a n b).kids c := by
    intro c hc m hm
    obtain ⟨rfl, rfl⟩ := h.once c hc a ha m n b (mem_kids_of_remove hm) hb
    rw [remove_kids_self] at hm
    exact (hndKids.mem_erase_iff.mp hm).1 rfl
  have hbelow : ∀ c, t.Below c → c ≠ b → (t.remove a n b).Below c := by
    intro c hc
    induction hc with
    | root => exact fun _ => .root
    | @kid c d m hc hd ih =>
      intro hdb
      have hcb : c ≠ b := fun he => by rw [he, hk] at hd; exact nomatch hd
      refine .kid (ih hcb) (n := m) ?_
      by_cases hca : c = a
      · subst hca
        rw [remove_kids_self]
        grind
      · rwa [remove_kids_of_ne hca]
  refine ⟨h.nodup.erase b, (hnodes _).mpr ⟨hroot.symm, h.root⟩, ?_, ?_, ?_, ?_⟩
  · rintro c hc ⟨m, d⟩ hd
    have hc' := ((hnodes c).mp hc).2
    obtain ⟨h1, h2⟩ := h.kid c hc' _ (mem_kids_of_remove hd)
    exact ⟨(hnodes d).mpr ⟨fun he => hgone c hc' m (he ▸ hd), h1⟩, h2⟩
  · intro c hc c' hc' m m' d hd hd'
    exact h.once c ((hnodes c).mp hc).2 c' ((hnodes c').mp hc').2 m m' d (mem_kids_of_remove hd)
      (mem_kids_of_remove hd')
  · intro c hc
    by_cases hca : c = a
    · subst hca
      rw [remove_kids_self]
      exact (h.names c ha).sublist (erase_sublist.map _)
    grind [remove_kids_of_ne, h.names]
  grind [h.below]

end Remove

end NameTree

end Kobalt
