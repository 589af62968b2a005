/-
  Subject: CHACHA20 AND THE AEAD (`crypto.c`, sections 4 and 6): the stream cipher with its
  keystream buffer, and ChaCha20-Poly1305 on buffers of one memory.
-/
import Kobalt.Net.Poly1305
import Mathlib.Logic.Function.Basic

namespace Kobalt.Net

open Function List

/-! ## 1. The code -/

def chacha20Rotl32 (v n : UInt32) : UInt32 := v <<< n ||| v >>> (32 - n)

/-- `CHACHA20_QR` on the words `a`, `b`, `c`, `d` of `x`. -/
def chacha20Qr (x : Nat → UInt32) (a b c d : Nat) : Nat → UInt32 :=
  let x := update x a (x a + x b)
  let x := update x d (x d ^^^ x a)
  let x := update x d (chacha20Rotl32 (x d) 16)
  let x := update x c (x c + x d)
  let x := update x b (x b ^^^ x c)
  let x := update x b (chacha20Rotl32 (x b) 12)
  let x := update x a (x a + x b)
  let x := update x d (x d ^^^ x a)
  let x := update x d (chacha20Rotl32 (x d) 8)
  let x := update x c (x c + x d)
  let x := update x b (x b ^^^ x c)
  update x b (chacha20Rotl32 (x b) 7)

/-- The body of the loop: four column rounds, four diagonal rounds. -/
def chacha20DoubleRound (x : Nat → UInt32) : Nat → UInt32 :=
  let x := chacha20Qr x 0 4 8 12
  let x := chacha20Qr x 1 5 9 13
  let x := chacha20Qr x 2 6 10 14
  let x := chacha20Qr x 3 7 11 15
  let x := chacha20Qr x 0 5 10 15
  let x := chacha20Qr x 1 6 11 12
  let x := chacha20Qr x 2 7 8 13
  chacha20Qr x 3 4 9 14

def chacha20Block (state : Nat → UInt32) : Text :=
  let x := (List.range 10).foldl (fun x _ => chacha20DoubleRound x) state
  (List.range 16).flatMap fun i => storeU32Le (x i + state i).toNat

/-- `crypto_chacha20_ctx`. -/
structure ChaCha20Ctx where
  state : Nat → UInt32
  keystream : Text
  pos : Nat

def chacha20Constants : List UInt32 := [0x61707865, 0x3320646E, 0x79622D32, 0x6B206574]

/-- The initial matrix. -/
def chacha20Matrix (key nonce : Text) (counter : UInt32) (i : Nat) : UInt32 :=
  if i < 4 then chacha20Constants.getD i 0
  else if i < 12 then UInt32.ofNat (loadU32Le key ((i - 4) * 4))
  else if i = 12 then counter
  else UInt32.ofNat (loadU32Le nonce ((i - 13) * 4))

/-- `crypto_chacha20_init`: the keystream buffer starts empty. -/
def cryptoChacha20Init (key nonce : Text) (counter : UInt32) : ChaCha20Ctx :=
  { state := chacha20Matrix key nonce counter, keystream := List.replicate 64 0, pos := 64 }

/-- The refill at the head of the loop. -/
def ChaCha20Ctx.refill (ctx : ChaCha20Ctx) : ChaCha20Ctx :=
  if ctx.pos ≥ 64 then
    { state := update ctx.state 12 (ctx.state 12 + 1), keystream := chacha20Block ctx.state, pos := 0 }
  else ctx

/-- The inner loop: `chunk` bytes, one after the other. -/
def xorChunk (mem : Bytes) (src dst : Nat) (keystream : Text) (pos chunk : Nat) : Bytes :=
  (List.range chunk).foldl
    (fun mem i => update mem (dst + i) (mem (src + i) ^^^ keystream.getD (pos + i) 0)) mem

/-- The loop of `crypto_chacha20_xor`. -/
def xorLoop : Nat → ChaCha20Ctx → Bytes → Nat → Nat → Nat → ChaCha20Ctx × Bytes
  | 0, ctx, mem, _, _, _ => (ctx, mem)
  | fuel + 1, ctx, mem, src, dst, len =>
    if len > 0 then
      let ctx := ctx.refill
      let avail := 64 - ctx.pos
      let chunk := if len < avail then len else avail
      let mem := xorChunk mem src dst ctx.keystream ctx.pos chunk
      xorLoop fuel { ctx with pos := ctx.pos + chunk } mem (src + chunk) (dst + chunk) (len - chunk)
    else (ctx, mem)

/-- `crypto_chacha20_xor`. Every round takes at least a byte, so `len` rounds are enough. -/
def cryptoChacha20Xor (ctx : ChaCha20Ctx) (mem : Bytes) (src dst len : Nat) : ChaCha20Ctx × Bytes :=
  xorLoop len ctx mem src dst len

/-- The bytes of a range of memory. -/
def readBytes (mem : Bytes) (a len : Nat) : Text := (List.range len).map fun i => mem (a + i)

def poly1305TagEq (a b : Text) : Bool :=
  let diff := (List.range 16).foldl (fun diff i => diff ||| (a.getD i 0 ^^^ b.getD i 0)) (0 : UInt8)
  (((diff.toNat + (2 ^ 32 - 1)) % 2 ^ 32) >>> 8) &&& 1 ≠ 0

def aeadPoly1305Feed (mac : Poly1305Ctx) (data : Text) : Poly1305Ctx :=
  let pad := (16 - (data.length &&& 15)) &&& 15
  let mac := if data.length > 0 then cryptoPoly1305Update mac data else mac
  if pad > 0 then cryptoPoly1305Update mac (List.replicate pad 0) else mac

def aeadPoly1305Len (mac : Poly1305Ctx) (v : Nat) : Poly1305Ctx :=
  cryptoPoly1305Update mac (storeU64Le v)

/-- The one-time key: the cipher with counter 0 over 32 zero bytes of a buffer of its own. -/
def aeadPolyKey (key nonce : Text) : Text :=
  readBytes (cryptoChacha20Xor (cryptoChacha20Init key nonce 0) zeroBytes 0 0 32).2 0 32

/-- The tag over associated data and ciphertext, as both directions compute it. -/
def aeadTag (key nonce aad ciphertext : Text) : Text :=
  let mac := cryptoPoly1305Init (aeadPolyKey key nonce)
  let mac := aeadPoly1305Feed mac aad
  let mac := aeadPoly1305Feed mac ciphertext
  let mac := aeadPoly1305Len mac aad.length
  let mac := aeadPoly1305Len mac ciphertext.length
  cryptoPoly1305Final mac

inductive CryptoErr where
  | ok | auth
  deriving DecidableEq, Repr

/-- `crypto_chacha20poly1305_encrypt`: plaintext at `pt`, ciphertext to `ct`; the tag and the memory. -/
def cryptoChacha20poly1305Encrypt (key nonce aad : Text) (mem : Bytes) (pt ct len : Nat) :
    CryptoErr × Text × Bytes :=
  let mem := (cryptoChacha20Xor (cryptoChacha20Init key nonce 1) mem pt ct len).2
  (.ok, aeadTag key nonce aad (readBytes mem ct len), mem)

/-- `crypto_chacha20poly1305_decrypt`: ciphertext at `ct`, plaintext to `pt`. -/
def cryptoChacha20poly1305Decrypt (key nonce aad : Text) (mem : Bytes) (ct pt len : Nat)
    (tag : Text) : CryptoErr × Bytes :=
  if !poly1305TagEq (aeadTag key nonce aad (readBytes mem ct len)) tag then (.auth, mem)
  else (.ok, (cryptoChacha20Xor (cryptoChacha20Init key nonce 1) mem ct pt len).2)

/-! ## 2. The standard -/

namespace Rfc

abbrev Word := BitVec 32

/-- A quarter round (2.1). -/
def quarterRound (a b c d : Word) : Word × Word × Word × Word :=
  let a := a + b
  let d := (d ^^^ a).rotateLeft 16
  let c := c + d
  let b := (b ^^^ c).rotateLeft 12
  let a := a + b
  let d := (d ^^^ a).rotateLeft 8
  let c := c + d
  let b := (b ^^^ c).rotateLeft 7
  (a, b, c, d)

/-- A quarter round on four words of the state (2.2). -/
def onState (x : Nat → Word) (a b c d : Nat) : Nat → Word :=
  let (a', b', c', d') := quarterRound (x a) (x b) (x c) (x d)
  fun i => if i = a then a' else if i = b then b' else if i = c then c' else if i = d then d' else x i

/-- The indices of the eight quarter rounds of two rounds (2.3). -/
def doubleRound : List (Nat × Nat × Nat × Nat) :=
  [(0, 4, 8, 12), (1, 5, 9, 13), (2, 6, 10, 14), (3, 7, 11, 15),
   (0, 5, 10, 15), (1, 6, 11, 12), (2, 7, 8, 13), (3, 4, 9, 14)]

/-- The ChaCha20 block function on a state (2.3). -/
def chachaBlock (state : Nat → Word) : Text :=
  let x := (List.range 10).foldl (fun x _ => doubleRound.foldl (fun x q => onState x q.1 q.2.1 q.2.2.1 q.2.2.2) x) state
  (List.range 16).flatMap fun i => leBytes 4 (x i + state i).toNat

/-- The text "expand 32-byte k". -/
def constant : Text :=
  [0x65, 0x78, 0x70, 0x61, 0x6E, 0x64, 0x20, 0x33, 0x32, 0x2D, 0x62, 0x79, 0x74, 0x65, 0x20, 0x6B]

/-- The state for a key, a nonce and a block counter (2.3). -/
def chachaState (key nonce : Text) (counter : Nat) (i : Nat) : Word :=
  if i < 4 then BitVec.ofNat 32 (leNat ((constant.drop (4 * i)).take 4))
  else if i < 12 then BitVec.ofNat 32 (leNat ((key.drop (4 * (i - 4))).take 4))
  else if i = 12 then BitVec.ofNat 32 counter
  else BitVec.ofNat 32 (leNat ((nonce.drop (4 * (i - 13))).take 4))

/-- Byte `i` of the keystream that starts at a block counter (2.4). -/
def keystream (key nonce : Text) (counter i : Nat) : UInt8 :=
  (chachaBlock (chachaState key nonce (counter + i / 64))).getD (i % 64) 0

/-- The one-time key (2.6). -/
def polyKey (key nonce : Text) : Text := (List.range 32).map (keystream key nonce 0)

/-- Zero padding to a multiple of 16 bytes (2.8). -/
def pad16 (l : Text) : Text := List.replicate ((16 - l.length % 16) % 16) 0

/-- **The tag of the AEAD** (2.8). -/
def aeadTag (key nonce aad ciphertext : Text) : Text :=
  poly1305 (polyKey key nonce)
    (aad ++ pad16 aad ++ ciphertext ++ pad16 ciphertext ++ leBytes 8 aad.length ++ leBytes 8 ciphertext.length)

end Rfc

/-! ## 3. The keystream -/

theorem chacha20Qr_eq (x : Nat → UInt32) {a b c d : Nat} (hab : a ≠ b) (hac : a ≠ c) (had : a ≠ d)
    (hbc : b ≠ c) (hbd : b ≠ d) (hcd : c ≠ d) :
    (fun i => (chacha20Qr x a b c d i).toBitVec) = Rfc.onState (fun i => (x i).toBitVec) a b c d := by
  funext i
  unfold chacha20Qr Rfc.onState Rfc.quarterRound
  simp only [update_apply, hab, hac, had, hbc, hbd, hcd, hab.symm, hac.symm, had.symm, hbc.symm,
    hbd.symm, hcd.symm, if_true, if_false]
  by_cases ha : i = a
  · simp only [ha, if_true, hab, hac, had, if_false]
    rfl
  by_cases hb : i = b
  · simp only [hb, if_true, hab.symm, if_false]
    rfl
  by_cases hc : i = c
  · simp only [hc, if_true, hac.symm, hbc.symm, hcd, if_false]
    rfl
  by_cases hd : i = d
  · simp only [hd, if_true, had.symm, hbd.symm, hcd.symm, if_false]
    rfl
  · simp only [ha, hb, hc, hd, if_false]

theorem chacha20DoubleRound_eq (x : Nat → UInt32) : (fun i => (chacha20DoubleRound x i).toBitVec) =
      Rfc.doubleRound.foldl (fun x q => Rfc.onState x q.1 q.2.1 q.2.2.1 q.2.2.2) fun i => (x i).toBitVec := by
  simp only [Rfc.doubleRound, foldl_cons, foldl_nil, chacha20DoubleRound]
  rw [chacha20Qr_eq, chacha20Qr_eq, chacha20Qr_eq, chacha20Qr_eq, chacha20Qr_eq, chacha20Qr_eq,
    chacha20Qr_eq, chacha20Qr_eq]
  all_goals decide

theorem chacha20Block_eq (state : Nat → UInt32) :
    chacha20Block state = Rfc.chachaBlock fun i => (state i).toBitVec := by
  have hfold : ∀ n, (fun i => ((List.range n).foldl (fun x _ => chacha20DoubleRound x) state i).toBitVec) =
      (List.range n).foldl (fun x _ => Rfc.doubleRound.foldl
        (fun x q => Rfc.onState x q.1 q.2.1 q.2.2.1 q.2.2.2) x) fun i => (state i).toBitVec := by
    intro n
    induction n with
    | zero => rfl
    | succ n ih =>
      rw [range_succ, foldl_append, foldl_append, ← ih]
      exact chacha20DoubleRound_eq _
  unfold chacha20Block Rfc.chachaBlock
  simp only [← hfold, storeU32Le_eq]
  rfl

theorem chacha20Matrix_eq (key nonce : Text) (counter i : Nat) :
    (chacha20Matrix key nonce (UInt32.ofNat counter) i).toBitVec = Rfc.chachaState key nonce counter i := by
  have hconst : ∀ j < 4, (chacha20Constants.getD j 0).toBitVec =
      BitVec.ofNat 32 (Rfc.leNat ((Rfc.constant.drop (4 * j)).take 4)) := by decide
  unfold chacha20Matrix Rfc.chachaState
  split
  · exact hconst i ‹_›
  split
  · rw [loadU32Le_eq_leNat, Nat.mul_comm]
    rfl
  split
  · rfl
  · rw [loadU32Le_eq_leNat, Nat.mul_comm]
    rfl

/-- The matrix with its counter moved on by `k`. -/
def counterAt (st : Nat → UInt32) (k : Nat) : Nat → UInt32 := update st 12 (st 12 + UInt32.ofNat k)

/-- Byte `i` of the keystream of a matrix. -/
def streamByte (st : Nat → UInt32) (i : Nat) : UInt8 :=
  (chacha20Block (counterAt st (i / 64))).getD (i % 64) 0

theorem streamByte_eq (key nonce : Text) (counter i : Nat) :
    streamByte (chacha20Matrix key nonce (UInt32.ofNat counter)) i = Rfc.keystream key nonce counter i := by
  have hctr : counterAt (chacha20Matrix key nonce (UInt32.ofNat counter)) (i / 64) =
      chacha20Matrix key nonce (UInt32.ofNat (counter + i / 64)) := by
    funext j
    unfold counterAt
    by_cases hj : j = 12
    · rw [hj, update_self, UInt32.ofNat_add]
      rfl
    · rw [update_of_ne hj]
      unfold chacha20Matrix
      simp only [hj, if_false]
  unfold streamByte Rfc.keystream
  rw [hctr, chacha20Block_eq]
  simp only [chacha20Matrix_eq]

/-- **At position `n`** of the keystream of a matrix: the counter is past the current block, and the
    buffer holds that block unless it is used up. -/
structure AtPos (st : Nat → UInt32) (ctx : ChaCha20Ctx) (n : Nat) : Prop where
  state : ctx.state = counterAt st ((n + 63) / 64)
  full : n % 64 = 0 → ctx.pos = 64
  part : n % 64 ≠ 0 → ctx.pos = n % 64 ∧ ctx.keystream = chacha20Block (counterAt st (n / 64))

theorem atPos_init (key nonce : Text) (counter : UInt32) :
    AtPos (chacha20Matrix key nonce counter) (cryptoChacha20Init key nonce counter) 0 := by
  refine ⟨?_, fun _ => rfl, fun h => absurd rfl h⟩
  funext j
  show chacha20Matrix key nonce counter j = counterAt _ 0 j
  unfold counterAt
  grind

theorem AtPos.refill {st : Nat → UInt32} {ctx : ChaCha20Ctx} {n : Nat} (h : AtPos st ctx n) :
    ctx.refill.pos = n % 64 ∧ ctx.refill.keystream = chacha20Block (counterAt st (n / 64)) ∧
      ctx.refill.state = counterAt st (n / 64 + 1) := by
  unfold ChaCha20Ctx.refill
  by_cases h0 : n % 64 = 0
  · have hdiv : (n + 63) / 64 = n / 64 := by omega
    rw [if_pos (show ctx.pos ≥ 64 from (h.full h0).ge), h.state, hdiv, h0]
    refine ⟨rfl, rfl, ?_⟩
    show update (counterAt st (n / 64)) 12 (counterAt st (n / 64) 12 + 1) = _
    unfold counterAt
    grind [UInt32.ofNat_add]
  · obtain ⟨hpos, hks⟩ := h.part h0
    have hdiv : (n + 63) / 64 = n / 64 + 1 := by omega
    rw [if_neg (show ¬ctx.pos ≥ 64 by omega), hpos, hks, h.state, hdiv]
    exact ⟨rfl, rfl, rfl⟩

theorem AtPos.advance {st : Nat → UInt32} {ctx : ChaCha20Ctx} {n c : Nat} (h : AtPos st ctx n)
    (h0 : 0 < c) (h64 : n % 64 + c ≤ 64) : AtPos st { ctx.refill with pos := ctx.refill.pos + c } (n + c) := by
  obtain ⟨hpos, hks, hst⟩ := h.refill
  refine ⟨?_, fun hm => ?_, fun hm => ⟨?_, ?_⟩⟩
  · exact hst.trans (congrArg _ (by omega))
  · show ctx.refill.pos + c = 64
    omega
  · grind
  grind

/-- Two buffers that coincide or do not meet. -/
def Apart (src dst len : Nat) : Prop := src = dst ∨ src + len ≤ dst ∨ dst + len ≤ src

/-- **The inner loop**, byte after byte: every byte is read before it is overwritten. -/
theorem xorChunk_eq {src dst : Nat} (mem : Bytes) (ks : Text) (pos chunk : Nat)
    (h : Apart src dst chunk) : xorChunk mem src dst ks pos chunk =
      fill mem dst chunk fun i => mem (src + i) ^^^ ks.getD (pos + i) 0 := by
  have hn : ∀ n ≤ chunk, (List.range n).foldl
      (fun mem i => update mem (dst + i) (mem (src + i) ^^^ ks.getD (pos + i) 0)) mem =
        fill mem dst n fun i => mem (src + i) ^^^ ks.getD (pos + i) 0 := by
    intro n hn
    induction n with
    | zero => simp
    | succ n ih =>
      rw [range_succ, foldl_append, ih (by omega), foldl_cons, foldl_nil]
      funext x
      have hread : fill mem dst n (fun i => mem (src + i) ^^^ ks.getD (pos + i) 0) (src + n) =
          mem (src + n) := fill_of_not_mem (by unfold Apart at h; omega)
      by_cases hx : x = dst + n
      · rw [hx, update_self, hread, fill_add (by omega)]
      · rw [update_of_ne hx]
        unfold fill
        grind
  exact hn chunk le_rfl

/-- **`crypto_chacha20_xor`** at position `n`: the range is combined with the keystream from there
    on, by induction on the rounds of the loop. -/
theorem xorLoop_eq {st : Nat → UInt32} : ∀ (fuel len : Nat) {ctx : ChaCha20Ctx} {n : Nat} (mem : Bytes)
    {src dst : Nat}, len ≤ fuel → AtPos st ctx n → Apart src dst len → (xorLoop fuel ctx mem src dst len).2 =
      fill mem dst len fun i => mem (src + i) ^^^ streamByte st (n + i) := by
  intro fuel
  induction fuel with
  | zero =>
    intro len ctx n mem src dst hlen _ _
    obtain rfl : len = 0 := by omega
    rw [fill_zero]
    rfl
  | succ fuel ih =>
    intro len ctx n mem src dst hlen hat hap
    unfold xorLoop
    by_cases h0 : len > 0
    swap
    · obtain rfl : len = 0 := by omega
      rw [if_neg h0, fill_zero]
    obtain ⟨hpos, hks, -⟩ := hat.refill
    have hmod := Nat.mod_lt n (show 0 < 64 by decide)
    generalize hchunk : (if len < 64 - n % 64 then len else 64 - n % 64) = chunk
    have hc : 0 < chunk ∧ chunk ≤ len ∧ n % 64 + chunk ≤ 64 := by
      rw [← hchunk]
      split <;> omega
    obtain ⟨hc0, hcl, hc64⟩ := hc
    have hnext := hat.advance hc0 hc64
    have hap1 : Apart src dst chunk := by
      unfold Apart at *
      omega
    have hap2 : Apart (src + chunk) (dst + chunk) (len - chunk) := by
      unfold Apart at *
      omega
    have hbyte : ∀ i, i < chunk → (chacha20Block (counterAt st (n / 64))).getD (n % 64 + i) 0 =
        streamByte st (n + i) := fun i hi => by
      unfold streamByte
      rw [show (n + i) / 64 = n / 64 by omega, show (n + i) % 64 = n % 64 + i by omega]
    have hfst : xorChunk mem src dst ctx.refill.keystream ctx.refill.pos chunk =
        fill mem dst chunk fun i => mem (src + i) ^^^ streamByte st (n + i) := by
      rw [xorChunk_eq _ _ _ _ hap1, hks, hpos]
      exact fill_ext fun i hi => congrArg _ (hbyte i hi)
    rw [if_pos h0]
    simp only
    rw [hpos, hchunk, ← hpos, hfst, ih (len - chunk) _ (by omega) hnext hap2,
      ← fill_fill _ _ _ hcl]
    -- The rest of the source is untouched by the bytes just written.
    refine fill_ext fun i hi => ?_
    rw [fill_of_not_mem (by unfold Apart at hap; omega), Nat.add_assoc, Nat.add_assoc]

theorem cryptoChacha20Xor_eq (key nonce : Text) (counter : Nat) (mem : Bytes) {src dst len : Nat}
    (h : Apart src dst len) :
    (cryptoChacha20Xor (cryptoChacha20Init key nonce (UInt32.ofNat counter)) mem src dst len).2 =
      fill mem dst len fun i => mem (src + i) ^^^ Rfc.keystream key nonce counter i := by
  unfold cryptoChacha20Xor
  rw [xorLoop_eq len len mem le_rfl (atPos_init ..) h]
  simp only [Nat.zero_add, streamByte_eq]

/-! ## 4. The tag -/

theorem aeadPolyKey_eq (key nonce : Text) : aeadPolyKey key nonce = Rfc.polyKey key nonce := by
  have h := cryptoChacha20Xor_eq key nonce 0 zeroBytes (show Apart 0 0 32 from .inl rfl)
  unfold aeadPolyKey
  rw [show (0 : UInt32) = UInt32.ofNat 0 from rfl, h]
  refine map_congr_left fun i hi => ?_
  rw [fill_add (mem_range.1 hi)]
  exact UInt8.zero_xor

theorem Absorbed.feed {key m : Text} {mac : Poly1305Ctx} (h : Absorbed key m mac) (data : Text) :
    Absorbed key (m ++ (data ++ Rfc.pad16 data)) (aeadPoly1305Feed mac data) := by
  have hand : ∀ x : Nat, x &&& 15 = x % 16 := fun x => Nat.and_two_pow_sub_one_eq_mod x 4
  have hdata : Absorbed key (m ++ data) (if data.length > 0 then cryptoPoly1305Update mac data else mac) := by
    split
    · exact h.update data
    · grind
  unfold aeadPoly1305Feed
  simp only [hand]
  rw [← append_assoc]
  split
  · exact hdata.update _
  grind [Rfc.pad16]

theorem aeadTag_eq (key nonce aad ct : Text) :
    aeadTag key nonce aad ct = Rfc.aeadTag key nonce aad ct := by
  unfold aeadTag Rfc.aeadTag aeadPoly1305Len
  simp only [aeadPolyKey_eq, storeU64Le_eq]
  have h := (((((absorbed_init (Rfc.polyKey key nonce)).feed aad).feed ct).update
    (Rfc.leBytes 8 aad.length)).update (Rfc.leBytes 8 ct.length)).final
  grind

theorem foldl_or_eq_zero {ι : Type*} (f : ι → UInt8) (l : List ι) (d : UInt8) :
    l.foldl (fun d i => d ||| f i) d = 0 ↔ d = 0 ∧ ∀ i ∈ l, f i = 0 := by
  induction l generalizing d with
  | nil => simp
  | cons i l ih => rw [foldl_cons, ih, UInt8.or_eq_zero_iff, forall_mem_cons, and_assoc]

/-- Subtracting 1 from a byte borrows out of the low eight bits only at 0. -/
theorem borrow_iff (d : UInt8) : (((d.toNat + (2 ^ 32 - 1)) % 2 ^ 32) >>> 8) &&& 1 ≠ 0 ↔ d = 0 := by
  constructor
  · intro h
    by_contra hd
    have hd0 : d.toNat ≠ 0 := fun h0 => hd (UInt8.toNat_inj.1 h0)
    have hlt := d.toNat_lt
    grind [Nat.shiftRight_eq_div_pow]
  · rintro rfl
    decide

/-- **The tag comparison** has no false positive and no false negative on tags. -/
theorem poly1305TagEq_iff {a b : Text} (ha : a.length = 16) (hb : b.length = 16) :
    poly1305TagEq a b = true ↔ a = b := by
  unfold poly1305TagEq
  rw [decide_eq_true_iff, borrow_iff, foldl_or_eq_zero]
  constructor
  · rintro ⟨-, h⟩
    refine ext_getElem (ha.trans hb.symm) fun i h1 h2 => ?_
    have hi := h i (mem_range.2 (by omega))
    grind [UInt8.xor_eq_zero_iff]
  grind [UInt8.xor_self]

theorem aeadTag_length (key nonce aad ct : Text) : (Rfc.aeadTag key nonce aad ct).length = 16 := by
  rw [Rfc.aeadTag, Rfc.poly1305, Rfc.leBytes, length_map, length_range]

/-! ## 5. The AEAD -/

/-- **Decryption with the right tag** combines the ciphertext with the keystream. -/
theorem decrypt_of_eq (key nonce aad : Text) (mem : Bytes) {ct pt len : Nat} (h : Apart ct pt len)
    {tag : Text} (ht : tag = Rfc.aeadTag key nonce aad (readBytes mem ct len)) :
    cryptoChacha20poly1305Decrypt key nonce aad mem ct pt len tag =
      (.ok, fill mem pt len fun i => mem (ct + i) ^^^ Rfc.keystream key nonce 1 i) := by
  have heq : poly1305TagEq tag tag = true :=
    (poly1305TagEq_iff (ht ▸ aeadTag_length ..) (ht ▸ aeadTag_length ..)).2 rfl
  unfold cryptoChacha20poly1305Decrypt
  rw [aeadTag_eq, ← ht, heq, if_neg (by decide)]
  exact congrArg _ (cryptoChacha20Xor_eq key nonce 1 mem h)

theorem decrypt_of_ne (key nonce aad : Text) (mem : Bytes) (ct pt len : Nat) {tag : Text}
    (hlen : tag.length = 16) (ht : tag ≠ Rfc.aeadTag key nonce aad (readBytes mem ct len)) :
    cryptoChacha20poly1305Decrypt key nonce aad mem ct pt len tag = (.auth, mem) := by
  have hne : poly1305TagEq (Rfc.aeadTag key nonce aad (readBytes mem ct len)) tag = false := by
    rw [← Bool.not_eq_true, poly1305TagEq_iff (aeadTag_length ..) hlen]
    exact fun h => ht h.symm
  unfold cryptoChacha20poly1305Decrypt
  rw [aeadTag_eq, hne, if_pos (by decide)]

theorem encrypt_eq (key nonce aad : Text) (mem : Bytes) {pt ct len : Nat} (h : Apart pt ct len) :
    cryptoChacha20poly1305Encrypt key nonce aad mem pt ct len = (.ok, Rfc.aeadTag key nonce aad
        ((List.range len).map fun i => mem (pt + i) ^^^ Rfc.keystream key nonce 1 i),
        fill mem ct len fun i => mem (pt + i) ^^^ Rfc.keystream key nonce 1 i) := by
  have hx := cryptoChacha20Xor_eq key nonce 1 mem h
  have hread : readBytes (fill mem ct len fun i => mem (pt + i) ^^^ Rfc.keystream key nonce 1 i) ct len =
      (List.range len).map fun i => mem (pt + i) ^^^ Rfc.keystream key nonce 1 i :=
    map_congr_left fun i hi => fill_add (mem_range.1 hi)
  grind [cryptoChacha20poly1305Encrypt, aeadTag_eq]

/-- **The AEAD**: whoever holds the ciphertext and the tag of an encryption gets the plaintext back,
    whether source and destination coincide or are apart, and a tag that is not the one of the
    standard is refused with nothing written. -/
theorem chacha20poly1305_aead (key nonce aad : Text) (mem rx : Bytes) (pt ct rxCt out len : Nat)
    (hpt : Apart pt ct len) (hout : Apart rxCt out len) :
    (∃ tag mem', cryptoChacha20poly1305Encrypt key nonce aad mem pt ct len = (.ok, tag, mem') ∧
      (readBytes rx rxCt len = readBytes mem' ct len →
        ∃ rx', cryptoChacha20poly1305Decrypt key nonce aad rx rxCt out len tag = (.ok, rx') ∧
          readBytes rx' out len = readBytes mem pt len)) ∧
    ∀ tag : Text, tag.length = 16 → tag ≠ Rfc.aeadTag key nonce aad (readBytes rx rxCt len) →
      cryptoChacha20poly1305Decrypt key nonce aad rx rxCt out len tag = (.auth, rx) := by
  refine ⟨⟨_, _, encrypt_eq key nonce aad mem hpt, fun hrx => ?_⟩,
    fun tag hlen hne => decrypt_of_ne _ _ _ _ _ _ _ hlen hne⟩
  have hct : readBytes rx rxCt len =
      (List.range len).map fun i => mem (pt + i) ^^^ Rfc.keystream key nonce 1 i :=
    hrx.trans (map_congr_left fun i hi => fill_add (mem_range.1 hi))
  refine ⟨_, decrypt_of_eq key nonce aad rx hout (by rw [hct]), map_congr_left fun i hi => ?_⟩
  have hbyte := map_inj_left.1 hct i hi
  grind [fill_add, UInt8.xor_assoc, UInt8.xor_self]

theorem chacha20poly1305_aead_in_place :
    ∃ tag mem', cryptoChacha20poly1305Encrypt [7] [9] [1, 2] zeroBytes 5 5 70 = (.ok, tag, mem') ∧
      ∃ rx', cryptoChacha20poly1305Decrypt [7] [9] [1, 2] mem' 5 5 70 tag = (.ok, rx') ∧
        readBytes rx' 5 70 = readBytes zeroBytes 5 70 := by
  have hap : Apart 5 5 70 := .inl rfl
  obtain ⟨tag, mem', he, -⟩ := (chacha20poly1305_aead [7] [9] [1, 2] zeroBytes zeroBytes 5 5 5 5 70 hap hap).1
  obtain ⟨tag', mem1, he', hd⟩ := (chacha20poly1305_aead [7] [9] [1, 2] zeroBytes mem' 5 5 5 5 70 hap hap).1
  grind

end Kobalt.Net
