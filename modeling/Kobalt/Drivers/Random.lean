/-
  Subject: THE RANDOM GENERATOR (`drivers/random/random.c`): what `random_add_entropy` keeps of the
  bytes it is given, and that no two blocks are generated from one ChaCha state.
-/
import Kobalt.Lib.Run
import Mathlib.Data.Fin.VecNotation
import Mathlib.Data.Nat.Digits.Lemmas
import Kobalt.Lib.Bytes

namespace Kobalt.Drivers

open Function List

/-! ## 1. The pool -/

/-- `pool` and `entropy_bits`. -/
structure Pool where
  word : Nat → BitVec 32
  entropyBits : Nat

/-- The word an index of `pool_stir` is mixed into. -/
def Pool.slot (p : Pool) (i : Nat) : Nat := (p.entropyBits + i) % 2 ^ 32 % 16

/-- One round of `pool_stir`. -/
def Pool.stir (p : Pool) (i : Nat) (w : BitVec 32) : Pool :=
  let idx := p.slot i
  let a := update p.word idx (p.word idx ^^^ w)
  let b := update a idx (a idx ^^^ (a ((idx + 3) % 16)).rotateLeft 7)
  { p with word := update b idx (b idx ^^^ (b ((idx + 13) % 16)).rotateLeft 19) }

def Pool.poolStir (p : Pool) (words : List (BitVec 32)) : Pool :=
  words.zipIdx.foldl (fun p w => p.stir w.2 w.1) p

/-- `memcpy` of at most four bytes into a zeroed word. -/
def word32 (l : Text) : BitVec 32 := BitVec.ofNat 32 (Nat.ofDigits 256 (l.map UInt8.toNat))

/-- The loop of `random_add_entropy`: the words of the buffer, each by a call of its own. -/
def Pool.addWords (p : Pool) : Text → Pool
  | a :: b :: c :: d :: rest => (p.poolStir [word32 [a, b, c, d]]).addWords rest
  | [] => p
  | rest => p.poolStir [word32 rest]

/-- `random_add_entropy`, and whether it wakes the readers that wait for the seed. -/
def randomAddEntropy (p : Pool) (buf : Text) (bits : Nat) : Pool × Bool :=
  let now := min ((p.entropyBits + bits) % 2 ^ 32) 256
  ({ p.addWords buf with entropyBits := now }, decide (p.entropyBits < 128 ∧ 128 ≤ now))

section Stir

variable (p : Pool) (v w : BitVec 32)

/-- What `pool_stir` mixes into a word besides the input. -/
def Pool.mix (i : Nat) : BitVec 32 :=
  (p.word ((p.slot i + 3) % 16)).rotateLeft 7 ^^^ (p.word ((p.slot i + 13) % 16)).rotateLeft 19

theorem Pool.slot_ne (i k : Nat) (hk : 0 < k ∧ k < 16) : (p.slot i + k) % 16 ≠ p.slot i := by
  have : p.slot i < 16 := Nat.mod_lt _ (by decide)
  omega

theorem Pool.stir_eq (i : Nat) :
    p.stir i w = { p with word := update p.word (p.slot i) (p.word (p.slot i) ^^^ w ^^^ p.mix i) } := by
  have h3 := p.slot_ne i 3 (by decide)
  have h13 := p.slot_ne i 13 (by decide)
  simp only [Pool.stir, update_self, update_of_ne h3, update_of_ne h13, update_idem, Pool.mix, BitVec.xor_assoc]

/-- A second word goes where the first went, and only their exclusive or is left. -/
theorem Pool.stir_stir : (p.stir 0 v).stir 0 w =
    { p with word := update p.word (p.slot 0) (p.word (p.slot 0) ^^^ (v ^^^ w)) } := by
  have hslot : (p.stir 0 v).slot 0 = p.slot 0 := rfl
  have hword : ∀ k, 0 < k ∧ k < 16 → (p.stir 0 v).word ((p.slot 0 + k) % 16) = p.word ((p.slot 0 + k) % 16) := by
    intro k hk
    rw [Pool.stir_eq]
    exact update_of_ne (p.slot_ne 0 k hk) ..
  have hmix : (p.stir 0 v).mix 0 = p.mix 0 := by
    rw [Pool.mix, hslot, hword 3 (by decide), hword 13 (by decide), Pool.mix]
  rw [Pool.stir_eq, hmix, hslot, Pool.stir_eq]
  simp only [update_self, update_idem]
  congr 2
  grind

theorem Pool.addWords_slot (buf : Text) :
    ∃ x, p.addWords buf = { p with word := update p.word (p.slot 0) x } := by
  fun_induction Pool.addWords p buf with
  | case1 p a b c d rest ih =>
    obtain ⟨x, hx⟩ := ih
    refine ⟨x, ?_⟩
    rw [hx, show p.poolStir [word32 [a, b, c, d]] = p.stir 0 _ from rfl,
      show (p.stir 0 _).slot 0 = p.slot 0 from rfl, Pool.stir_eq]
    simp only [update_idem]
  | case2 => exact ⟨_, by rw [update_eq_self]⟩
  | case3 p rest => exact ⟨_, p.stir_eq _ 0⟩

end Stir

theorem Pool.addWords_short (p : Pool) {buf : Text} (h : buf.length ≤ 4) (h0 : buf ≠ []) :
    p.addWords buf = p.stir 0 (word32 buf) := by
  match buf, h, h0 with
  | [_], _, _ | [_, _], _, _ | [_, _, _], _, _ | [_, _, _, _], _, _ => rfl

theorem word32_inj {a b : Text} (hl : a.length = b.length) (h4 : a.length ≤ 4) (h : word32 a = word32 b) :
    a = b := by
  have hlt : ∀ l : Text, l.length ≤ 4 → Nat.ofDigits 256 (l.map UInt8.toNat) < 2 ^ 32 := by
    intro l hl
    refine lt_of_lt_of_le (Nat.ofDigits_lt_base_pow_length (b := 256) (by decide) fun d hd => ?_) ?_
    · obtain ⟨c, -, rfl⟩ := mem_map.1 hd
      exact c.toNat_lt
    · rw [length_map]
      exact Nat.pow_le_pow_right (by decide) hl
  have h' := congrArg BitVec.toNat h
  simp only [word32, BitVec.toNat_ofNat, Nat.mod_eq_of_lt (hlt a h4), Nat.mod_eq_of_lt (hlt b (hl ▸ h4))] at h'
  have hb : ∀ (l : Text), ∀ d ∈ l.map UInt8.toNat, d < 256 := by
    intro l d hd
    obtain ⟨c, -, rfl⟩ := mem_map.1 hd
    exact c.toNat_lt
  exact map_injective_iff.2 (fun _ _ => UInt8.toNat_inj.1)
    (Nat.ofDigits_inj_of_len_eq (by decide) (by simp [hl]) (hb a) (hb b) h')

/-- Two words with the same bit set, behind each other, are lost. -/
theorem Pool.addWords_pair (p : Pool) (n : Nat) :
    p.addWords (1 :: 0 :: 0 :: 0 :: 1 :: .replicate n 0) = p.addWords (.replicate (n + 5) 0) := by
  have hpair : ∀ v w v' w' : BitVec 32, v ^^^ w = v' ^^^ w' →
      (p.stir 0 v).stir 0 w = (p.stir 0 v').stir 0 w' := by
    intro v w v' w' h
    rw [Pool.stir_stir, Pool.stir_stir, h]
  match n with
  | 0 => exact hpair 1 1 0 0 (by decide)
  | 1 => exact hpair 1 1 0 0 (by decide)
  | 2 => exact hpair 1 1 0 0 (by decide)
  | n + 3 => exact congrArg (Pool.addWords · (.replicate n 0)) (hpair 1 1 0 0 (by decide))

/-- **`random_add_entropy` keeps every buffer apart from the others of its length exactly when that
    length is at most four.** All words of a call go into one word of the pool, so that a call leaves
    at most 2^32 different pools behind. -/
theorem add_entropy_injective_iff (p : Pool) (bits len : Nat) :
    ((∀ a b : Text, a.length = len → b.length = len →
      (randomAddEntropy p a bits).1 = (randomAddEntropy p b bits).1 → a = b) ↔ len ≤ 4) ∧
    ∃ f : BitVec 32 → Pool, ∀ buf, ∃ x, (randomAddEntropy p buf bits).1 = f x := by
  refine ⟨⟨fun h => ?_, fun h4 a b ha hb he => ?_⟩, ?_⟩
  · by_contra hlen
    obtain ⟨n, rfl⟩ : ∃ n, len = n + 5 := ⟨len - 5, by omega⟩
    have := h (1 :: 0 :: 0 :: 0 :: 1 :: .replicate n 0) (.replicate (n + 5) 0) (by simp) (by simp)
      (by rw [randomAddEntropy, randomAddEntropy, p.addWords_pair])
    simp [replicate_succ] at this
  · rcases Nat.eq_zero_or_pos len with h0 | h0
    · rw [length_eq_zero_iff.1 (ha.trans h0), length_eq_zero_iff.1 (hb.trans h0)]
    have hne : ∀ l : Text, l.length = len → l ≠ [] := fun l hl e => by
      rw [e, length_nil] at hl
      omega
    have hw := congrFun (congrArg Pool.word he) (p.slot 0)
    simp only [randomAddEntropy, p.addWords_short (ha ▸ h4) (hne a ha), p.addWords_short (hb ▸ h4) (hne b hb),
      Pool.stir_eq, update_self] at hw
    rw [BitVec.xor_assoc, BitVec.xor_assoc, BitVec.xor_right_inj, BitVec.xor_left_inj] at hw
    exact word32_inj (ha.trans hb.symm) (ha ▸ h4) hw
  · refine ⟨fun x => ⟨update p.word (p.slot 0) x, min ((p.entropyBits + bits) % 2 ^ 32) 256⟩, fun buf => ?_⟩
    obtain ⟨x, hx⟩ := p.addWords_slot buf
    exact ⟨x, by rw [randomAddEntropy, hx]⟩

/-- Two outputs of the hardware, 32 bytes each, and one pool. -/
theorem add_entropy_loses : ∃ a b : Text, a.length = 32 ∧ b.length = 32 ∧ a ≠ b ∧
    (randomAddEntropy ⟨fun _ => 0, 0⟩ a 64).1 = (randomAddEntropy ⟨fun _ => 0, 0⟩ b 64).1 :=
  ⟨1 :: 0 :: 0 :: 0 :: 1 :: .replicate 27 0, .replicate 32 0, rfl, rfl, by decide,
    by rw [randomAddEntropy, randomAddEntropy, Pool.addWords_pair]⟩

/-! ## 2. The generator -/

/-- `rng_state`: constants, key, counter and nonce. -/
abbrev RngState := Fin 16 → BitVec 32

def rngSetKey (key : Fin 8 → BitVec 32) (nonce : Fin 3 → BitVec 32) : RngState :=
  ![0x61707865, 0x3320646e, 0x79622d32, 0x6b206574, key 0, key 1, key 2, key 3, key 4, key 5, key 6, key 7,
    0, nonce 0, nonce 1, nonce 2]

/-- The counter after a block, with its carry into the nonce. -/
def rngNext (x : RngState) : RngState :=
  let y := update x 12 (x 12 + 1)
  if y 12 = 0 then update y 13 (y 13 + 1) else y

/-- Where a call of `urandom_read` or `random_read` stands: `reseed` has a critical section under
    `pool_lock` and one under `rng_lock`, and the bytes are made in a third. -/
inductive Phase where
  | out
  | derived (key : Fin 8 → BitVec 32) (nonce : Fin 3 → BitVec 32)
  | keyed

/-- The generator and its callers, with what the blocks were made from, the time stamps `reseed` has
    read, and the number of blocks since a key was installed (`none` before the first). -/
structure Rng where
  pool : Pool
  state : RngState
  phase : Nat → Phase
  used : List RngState
  stamps : List (BitVec 64)
  since : Option Nat

/-- A block of `rng_fill`. -/
def Rng.block (s : Rng) : Rng :=
  { s with state := rngNext s.state, used := s.state :: s.used, since := s.since.map (· + 1) }

inductive RngAct where
  | addEntropy (buf : Text) (bits : Nat)
  | derive (c : Nat) (ts : BitVec 64)
  | install (c : Nat)
  | fill (c len : Nat)

/-- `nonce[0]` and `nonce[1]`. -/
def stampWords (ts : BitVec 64) : BitVec 32 × BitVec 32 := (ts.setWidth 32, (ts >>> 32).setWidth 32)

/-- **A critical section of a caller.** -/
def rngStep (s : Rng) : RngAct → Unit × Rng
  | .addEntropy buf bits => ((), { s with pool := (randomAddEntropy s.pool buf bits).1 })
  | .derive c ts => ((), match s.phase c with
    | .out => { s with
        phase := update s.phase c (.derived (fun i => s.pool.word i ^^^ s.pool.word (i + 8))
          ![(stampWords ts).1, (stampWords ts).2, s.pool.word 15 ^^^ s.pool.word 0])
        stamps := ts :: s.stamps }
    | _ => s)
  | .install c => ((), match s.phase c with
    | .derived key nonce => { s with
        state := rngSetKey key nonce, phase := update s.phase c .keyed, since := some 0 }
    | _ => s)
  | .fill c len => ((), match s.phase c with
    | .keyed => { Rng.block^[(len + 63) / 64] s with phase := update s.phase c .out }
    | _ => s)

/-- A time stamp is new, and fewer than 2^32 blocks are made with one key. -/
def RngAdmitted (s : Rng) : RngAct → Prop
  | .derive _ ts => ts ∉ s.stamps
  | .fill _ len => ∀ n, s.since = some n → n + (len + 63) / 64 < 2 ^ 32
  | _ => True

/-- `random.c` before the first call. -/
def rngBoot (p : Pool) : Rng := ⟨p, fun _ => 0, fun _ => .out, [], [], none⟩

/-- The words of the nonce that hold the time stamp. -/
def RngState.stamp (x : RngState) : BitVec 32 × BitVec 32 := (x 13, x 14)

structure RngInv (s : Rng) : Prop where
  nodup : s.used.Nodup
  unkeyed : s.since = none → ∀ c, s.phase c ≠ .keyed
  used : ∀ x ∈ s.used, x.stamp ∈ s.stamps.map stampWords
  count : ∀ n, s.since = some n → (s.state 12).toNat = n ∧ s.state.stamp ∈ s.stamps.map stampWords ∧
    ∀ x ∈ s.used, x.stamp = s.state.stamp → (x 12).toNat < n
  derived : ∀ c key nonce, s.phase c = .derived key nonce → (nonce 0, nonce 1) ∈ s.stamps.map stampWords ∧
    (∀ x ∈ s.used, x.stamp ≠ (nonce 0, nonce 1)) ∧ (s.since ≠ none → s.state.stamp ≠ (nonce 0, nonce 1))
  apart : ∀ c d key nonce key' nonce', s.phase c = .derived key nonce → s.phase d = .derived key' nonce' →
    c ≠ d → (nonce 0, nonce 1) ≠ (nonce' 0, nonce' 1)

theorem stampWords_injective : Injective stampWords := by
  intro a b h
  have h1 := congrArg BitVec.toNat (congrArg Prod.fst h)
  have h2 := congrArg BitVec.toNat (congrArg Prod.snd h)
  simp only [stampWords, BitVec.toNat_setWidth, BitVec.toNat_ushiftRight, Nat.shiftRight_eq_div_pow] at h1 h2
  have := a.isLt
  have := b.isLt
  exact BitVec.eq_of_toNat_eq (by omega)

/-- While the counter does not wrap, a block leaves the rest of the state alone. -/
theorem rngNext_of_lt {x : RngState} (h : (x 12).toNat + 1 < 2 ^ 32) :
    (rngNext x 12).toNat = (x 12).toNat + 1 ∧ (rngNext x).stamp = x.stamp := by
  have hadd : (x 12 + 1).toNat = (x 12).toNat + 1 := by
    rw [BitVec.toNat_add]
    exact Nat.mod_eq_of_lt h
  have h0 : x 12 + 1 ≠ 0 := fun e => by
    rw [e] at hadd
    simp at hadd
  have he : rngNext x = update x 12 (x 12 + 1) := by rw [rngNext, update_self, if_neg h0]
  rw [he, update_self, hadd]
  exact ⟨rfl, rfl⟩

theorem RngInv.block {s : Rng} (h : RngInv s) {n : Nat} (hn : s.since = some n) (hlt : n + 1 < 2 ^ 32) :
    RngInv s.block := by
  obtain ⟨hc, hs, hx⟩ := h.count n hn
  obtain ⟨hnext, hstamp⟩ := rngNext_of_lt (x := s.state) (by omega)
  have hsince : s.block.since = some (n + 1) := by rw [Rng.block, hn]; rfl
  refine ⟨nodup_cons.2 ⟨fun hm => ?_, h.nodup⟩, by simp [hsince], ?_, fun m hm => ?_,
    fun c key nonce hd => ?_, h.apart⟩
  · have := hx _ hm rfl
    omega
  · exact forall_mem_cons.2 ⟨hs, h.used⟩
  · obtain rfl : n + 1 = m := by rw [hsince] at hm; exact Option.some.inj hm
    refine ⟨by show (rngNext s.state 12).toNat = _; omega, by show (rngNext s.state).stamp ∈ _; rw [hstamp]; exact hs,
      forall_mem_cons.2 ⟨fun _ => by omega, fun x hm he => ?_⟩⟩
    exact Nat.lt_succ_of_lt (hx x hm (he.trans hstamp))
  · obtain ⟨h1, h2, h3⟩ := h.derived c key nonce hd
    have h3 := h3 (by simp [hn])
    exact ⟨h1, forall_mem_cons.2 ⟨h3, h2⟩, fun _ => by show (rngNext s.state).stamp ≠ _; rw [hstamp]; exact h3⟩

theorem derived_update {phase : Nat → Phase} {c d : Nat} {k key : Fin 8 → BitVec 32} {m nonce : Fin 3 → BitVec 32}
    (hd : update phase c (.derived k m) d = .derived key nonce) :
    d = c ∧ nonce = m ∨ d ≠ c ∧ phase d = .derived key nonce := by
  by_cases hdc : d = c
  · rw [hdc, update_self] at hd
    exact .inl ⟨hdc, (Phase.derived.inj hd).2.symm⟩
  · exact .inr ⟨hdc, by rwa [update_of_ne hdc] at hd⟩

theorem RngInv.blocks (k : Nat) : ∀ {s : Rng} {n : Nat}, RngInv s → s.since = some n → n + k < 2 ^ 32 →
    RngInv (Rng.block^[k] s) ∧ (Rng.block^[k] s).since ≠ none ∧ (Rng.block^[k] s).phase = s.phase := by
  induction k with
  | zero => exact fun h hn _ => ⟨h, by simp [hn], rfl⟩
  | succ k ih =>
    intro s n h hn hlt
    exact ih (h.block hn (by omega)) (n := n + 1) (by rw [Rng.block, hn]; rfl) (by omega)

/-- **No two blocks are generated from one ChaCha state**, whatever the callers, their number and
    their interleaving. -/
theorem no_keystream_reuse (p : Pool) (h : Log RngAct Unit) (s : Rng)
    (hr : Reach RngAdmitted rngStep (rngBoot p) h s) : s.used.Nodup := by
  refine RngInv.nodup (hr.invState ?_ fun s a hi ha => ?_)
  · exact ⟨nodup_nil, fun _ _ => nofun, nofun, nofun, nofun, nofun⟩
  cases a with
  | addEntropy buf bits => exact ⟨hi.nodup, hi.unkeyed, hi.used, hi.count, hi.derived, hi.apart⟩
  | derive c ts =>
    simp only [rngStep]
    split
    · have hnew : stampWords ts ∉ s.stamps.map stampWords := by
        rw [mem_map_of_injective stampWords_injective]
        exact ha
      have hcur : ∀ n, s.since = some n → s.state.stamp ∈ s.stamps.map stampWords :=
        fun n hn => (hi.count n hn).2.1
      refine ⟨hi.nodup, by grind [hi.unkeyed], by grind [hi.used], by grind [hi.count], fun d key nonce hd => ?_,
        fun d e key nonce key' nonce' hd he hne => ?_⟩
      · rcases derived_update hd with ⟨-, rfl⟩ | ⟨-, hd⟩
        · refine ⟨mem_cons_self, fun x hx (e : _ = stampWords ts) => hnew (e ▸ hi.used x hx),
            fun hk (e : _ = stampWords ts) => ?_⟩
          obtain ⟨n, hn⟩ := Option.ne_none_iff_exists'.1 hk
          exact hnew (e ▸ hcur n hn)
        · exact (hi.derived d key nonce hd).imp (mem_cons_of_mem _) id
      · rcases derived_update hd with ⟨rfl, rfl⟩ | ⟨-, hd'⟩ <;> rcases derived_update he with ⟨rfl, rfl⟩ | ⟨-, he'⟩
        · exact absurd rfl hne
        · exact fun (hq : stampWords ts = _) => hnew (hq ▸ (hi.derived e key' nonce' he').1)
        · exact fun (hq : _ = stampWords ts) => hnew (hq ▸ (hi.derived d key nonce hd').1)
        · exact hi.apart d e key nonce key' nonce' hd' he' hne
    · exact hi
  | install c =>
    simp only [rngStep]
    split
    · next key nonce hc =>
      obtain ⟨h1, h2, -⟩ := hi.derived c key nonce hc
      refine ⟨hi.nodup, nofun, hi.used, fun n hn => ?_, fun d k m hd => ?_, fun d e => ?_⟩ <;> dsimp only at *
      · obtain rfl := Option.some.inj hn
        exact ⟨rfl, h1, fun x hx e => absurd e (h2 x hx)⟩
      · have hdc : d ≠ c := by rintro rfl; rw [update_self] at hd; cases hd
        rw [update_of_ne hdc] at hd
        obtain ⟨g1, g2, -⟩ := hi.derived d k m hd
        exact ⟨g1, g2, fun _ => hi.apart c d key nonce k m hc hd (Ne.symm hdc)⟩
      · grind [hi.apart]
    · exact hi
  | fill c len =>
    simp only [rngStep]
    split
    · next hc =>
      obtain ⟨n, hn⟩ := Option.ne_none_iff_exists'.1 fun hk => hi.unkeyed hk c hc
      obtain ⟨hb, hk, hphase⟩ := hi.blocks _ hn (ha n hn)
      refine ⟨hb.nodup, fun h0 => absurd h0 hk, hb.used, hb.count, fun d k m hd => ?_, fun d e => ?_⟩ <;> dsimp only at *
      · exact hb.derived d k m (by grind)
      · grind [hi.apart]
    · exact hi

/-- A run of one caller. -/
theorem no_keystream_reuse_two : ∃ h s, Reach RngAdmitted rngStep (rngBoot ⟨fun _ => 0, 0⟩) h s ∧
    s.used.length = 5 ∧ s.used.Nodup := by
  have hr : Reach RngAdmitted rngStep (rngBoot ⟨fun _ => 0, 0⟩) _ _ := .step _ _ (RngAct.install 0)
    (.step _ _ (RngAct.derive 1 8) (.step _ _ (RngAct.derive 0 7) .start not_mem_nil) (show 8 ∉ [7] by decide)) trivial
  have hr := Reach.step _ _ (RngAct.fill 0 130) hr fun n hn => Option.some.inj (show some 0 = some n from hn) ▸ by decide
  have hr := Reach.step _ _ (RngAct.install 1) hr trivial
  have hr := Reach.step _ _ (RngAct.fill 1 70) hr fun n hn => Option.some.inj (show some 0 = some n from hn) ▸ by decide
  exact ⟨_, _, hr, rfl, no_keystream_reuse _ _ _ hr⟩

end Kobalt.Drivers
