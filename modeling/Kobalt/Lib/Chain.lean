/-
  Subject: LISTS LINKED THROUGH A HEAP of objects: every object has a field with the address of the
  next one, and address 0 ends the list.
-/
import Mathlib.Data.List.Nodup
import Mathlib.Logic.Function.Basic

namespace Kobalt

open Function List

variable {α : Type*}

/-- **The objects from `p` on.** -/
def Chain (heap : Nat → Option α) (next : α → Nat) : Nat → List Nat → Prop
  | p, [] => p = 0
  | p, a :: l => p = a ∧ a ≠ 0 ∧ ∃ x, heap a = some x ∧ Chain heap next (next x) l

/-- Go along the links from `p` until `test` holds: the object before and the object found, 0 if the
    list ends. `none` is a link to no object, or a list longer than `fuel`. -/
def walk (heap : Nat → Option α) (next : α → Nat) (test : Nat → α → Bool) : Nat → Nat → Nat → Option (Nat × Nat)
  | 0, _, _ => none
  | fuel + 1, prev, p =>
    if p = 0 then some (prev, 0)
    else (heap p).bind fun x => if test p x then some (prev, p) else walk heap next test fuel p (next x)

/-- The link behind `prev`, or the head of the list if that is 0, is set to `q`. -/
def unhook (setNext : α → Nat → α) (heap : Nat → Option α) (head prev q : Nat) : (Nat → Option α) × Nat :=
  if prev = 0 then (heap, q) else (update heap prev ((heap prev).map fun x => setNext x q), head)

section Chain

variable {heap heap' : Nat → Option α} {next : α → Nat} {p q a c : Nat} {l l' l₁ l₂ : List Nat} {x : α}

section

variable (h : Chain heap next p l)
include h

theorem Chain.alloc (ha : a ∈ l) : a ≠ 0 ∧ ∃ x, heap a = some x := by
  induction l generalizing p with
  | nil => exact nomatch ha
  | cons b l ih =>
    obtain ⟨-, hb, y, hy, ht⟩ := h
    grind

theorem Chain.congr
    (hc : ∀ a ∈ l, ∀ x, heap a = some x → ∃ y, heap' a = some y ∧ next y = next x) : Chain heap' next p l := by
  induction l generalizing p with
  | nil => exact h
  | cons b l ih =>
    obtain ⟨hp, hb, x, hx, ht⟩ := h
    obtain ⟨y, hy, hn⟩ := hc b mem_cons_self x hx
    exact ⟨hp, hb, y, hy, hn ▸ ih ht fun a ha => hc a (mem_cons_of_mem _ ha)⟩

theorem Chain.frame (ha : a ∉ l) (v : Option α) : Chain (update heap a v) next p l :=
  h.congr fun b hb x hx => ⟨x, by rw [update_of_ne (fun he : b = a => ha (he ▸ hb)), hx], rfl⟩

/-- **An object in front.** -/
theorem Chain.push (h0 : a ≠ 0) (ha : a ∉ l) (hn : next x = p) :
    Chain (update heap a (some x)) next a (a :: l) :=
  ⟨rfl, h0, x, update_self .., hn ▸ h.frame ha _⟩

theorem Chain.unique (h' : Chain heap next p l') : l = l' := by
  induction l generalizing p l' with
  | nil =>
    cases l' with
    | nil => rfl
    | cons b l' => exact absurd (h'.1.symm.trans h) h'.2.1
  | cons a l ih =>
    cases l' with
    | nil => exact absurd (h.1.symm.trans h') h.2.1
    | cons b l' =>
      obtain ⟨rfl, -, x, hx, ht⟩ := h
      obtain ⟨rfl, -, y, hy, ht'⟩ := h'
      grind

omit h in
theorem Chain.suffix (h : Chain heap next p (l₁ ++ c :: l₂)) (hx : heap c = some x) : Chain heap next (next x) l₂ := by
  induction l₁ generalizing p with
  | nil =>
    obtain ⟨-, -, y, hy, ht⟩ := h
    exact Option.some.inj (hx.symm.trans hy) ▸ ht
  | cons a l₁ ih => exact ih h.2.2.choose_spec.2

/-- **No object comes twice**: what follows it would be two lists of different lengths. -/
theorem Chain.nodup : l.Nodup := by
  induction l generalizing p with
  | nil => exact nodup_nil
  | cons a l ih =>
    obtain ⟨rfl, -, x, hx, ht⟩ := h
    refine nodup_cons.mpr ⟨fun ha => ?_, ih ht⟩
    obtain ⟨l₁, l₂, rfl⟩ := append_of_mem ha
    have he := congrArg List.length (ht.unique (ht.suffix hx))
    grind

end

theorem walk_hit {test : Nat → α → Bool} (fuel prev : Nat) (h0 : p ≠ 0) (hx : heap p = some x) (ht : test p x = true) :
    walk heap next test (fuel + 1) prev p = some (prev, p) := by
  rw [walk, if_neg h0, hx, Option.bind_some, if_pos ht]

theorem walk_miss {test : Nat → α → Bool} (fuel prev : Nat) (h0 : p ≠ 0) (hx : heap p = some x)
    (ht : test p x = false) : walk heap next test (fuel + 1) prev p = walk heap next test fuel p (next x) := by
  rw [walk, if_neg h0, hx, Option.bind_some, if_neg (by simp [ht])]

/-- **What the loop finds**: the first object that meets the test, and the one before it. -/
theorem walk_spec (test : Nat → α → Bool) (prev : Nat) {fuel : Nat} (h : Chain heap next p l) (hf : l.length < fuel) :
    (walk heap next test fuel prev p = some (l.getLastD prev, 0) ∧
      ∀ a ∈ l, ∀ x, heap a = some x → test a x = false) ∨
    ∃ l₁ c l₂ x, l = l₁ ++ c :: l₂ ∧ heap c = some x ∧ test c x = true ∧
      (∀ a ∈ l₁, ∀ x, heap a = some x → test a x = false) ∧
      walk heap next test fuel prev p = some (l₁.getLastD prev, c) := by
  induction l generalizing p fuel prev with
  | nil =>
    obtain ⟨fuel, rfl⟩ := Nat.exists_eq_succ_of_ne_zero (Nat.ne_of_gt hf)
    obtain rfl : p = 0 := h
    exact .inl ⟨rfl, fun _ ha => nomatch ha⟩
  | cons a l ih =>
    obtain ⟨fuel, rfl⟩ := Nat.exists_eq_succ_of_ne_zero (Nat.ne_of_gt (Nat.lt_of_le_of_lt (Nat.zero_le _) hf))
    obtain ⟨rfl, h0, x, hx, ht⟩ := h
    cases htest : test p x with
    | true => exact .inr ⟨[], p, l, x, rfl, hx, htest, fun _ ha => (nomatch ha), walk_hit fuel prev h0 hx htest⟩
    | false =>
      have hp : ∀ y, heap p = some y → test p y = false := fun y hy =>
        Option.some.inj (hx.symm.trans hy) ▸ htest
      have hcons : ∀ l : List Nat, (p :: l).getLastD prev = l.getLastD p := fun l => by cases l <;> rfl
      rw [walk_miss fuel prev h0 hx htest]
      rcases ih p ht (Nat.lt_of_succ_lt_succ hf) with ⟨hw, hno⟩ | ⟨l₁, c, l₂, y, rfl, hc, hy, hno, hw⟩
      · exact .inl ⟨by rw [hw, hcons], forall_mem_cons.mpr ⟨hp, hno⟩⟩
      grind

theorem unhook_map {β : Type*} (setNext : α → Nat → α) (f : α → β) (hf : ∀ x q, f (setNext x q) = f x)
    (heap : Nat → Option α) (head prev q a : Nat) :
    ((unhook setNext heap head prev q).1 a).map f = (heap a).map f := by
  unfold Kobalt.unhook
  split
  · rfl
  · dsimp only
    by_cases ha : a = prev
    · subst ha
      rw [update_self, Option.map_map]
      exact congrArg (fun g => (heap a).map g) (funext fun x => hf x q)
    · rw [update_of_ne ha]

theorem unhook_of_ne {setNext : α → Nat → α} {head prev : Nat} (ha : a ≠ prev) :
    (unhook setNext heap head prev q).1 a = heap a := by
  unfold Kobalt.unhook
  split
  · rfl
  · exact update_of_ne ha _ _

/-- **The object `c` is taken out**: the list goes on past it. -/
theorem Chain.unhook {setNext : α → Nat → α} (hset : ∀ x q, next (setNext x q) = q)
    (h : Chain heap next p (l₁ ++ c :: l₂)) (hx : heap c = some x) :
    Chain (unhook setNext heap p (l₁.getLastD 0) (next x)).1 next (unhook setNext heap p (l₁.getLastD 0) (next x)).2
      (l₁ ++ l₂) := by
  have hnd := h.nodup
  rcases eq_nil_or_concat l₁ with rfl | ⟨l₀, b, rfl⟩
  · exact h.suffix hx
  · have hb0 : b ≠ 0 := (h.alloc (by simp)).1
    obtain ⟨y, hy⟩ := (h.alloc (a := b) (by simp)).2
    have hlast : (l₀.concat b).getLastD 0 = b := by simp
    rw [hlast, Kobalt.unhook, if_neg hb0, hy, Option.map_some]
    rw [concat_eq_append, append_assoc] at h hnd ⊢
    have hbl : b ∉ l₀ ∧ b ∉ c :: l₂ := by
      simpa [not_or] using (nodup_cons.mp (nodup_middle.mp hnd)).1
    have hrest : Chain heap next (next x) l₂ := (show Chain heap next p ((l₀ ++ [b]) ++ c :: l₂) by simpa using h).suffix hx
    clear hnd hlast
    dsimp only
    -- the links up to `b` are as before, the one behind it leads to the rest
    induction l₀ generalizing p with
    | nil =>
      obtain ⟨rfl, -⟩ := h
      refine ⟨rfl, hb0, setNext y (next x), update_self .., ?_⟩
      rw [hset]
      exact hrest.frame (fun hm => hbl.2 (mem_cons_of_mem _ hm)) _
    | cons a l₀ ih =>
      obtain ⟨rfl, h0, z, hz, ht⟩ := h
      have hpb : p ≠ b := fun he => hbl.1 (he ▸ mem_cons_self)
      exact ⟨rfl, h0, z, by rw [update_of_ne hpb, hz], ih ht ⟨fun hm => hbl.1 (mem_cons_of_mem _ hm), hbl.2⟩⟩

end Chain

end Kobalt
