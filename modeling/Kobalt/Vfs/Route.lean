/-
  Subject: MOUNT ROUTING (`fs/vfs/vfs.c`): the table of drivers, and the driver a path goes to.

  Strings are lists of bytes without their NUL, and reading at the end of one gives the NUL. The
  table is the first `g_ndrv` entries of `g_drv`: an entry past them is cleared before it is used.
-/
import Mathlib.Data.List.Basic
import Mathlib.Data.List.Infix
import Kobalt.Lib.Run
import Kobalt.Lib.Bytes

namespace Kobalt.Vfs

open List

/-! ## 1. The code -/

def vfsMaxDrivers : Nat := 16

def vfsPathMax : Nat := 512

def slash : UInt8 := 47

def vstrcmpN : Text → Text → Nat → Int
  | _, _, 0 => 0
  | a, b, n + 1 =>
    if a.headD 0 ≠ b.headD 0 then (a.headD 0).toNat - (b.headD 0).toNat
    else if a.headD 0 = 0 then 0
    else vstrcmpN a.tail b.tail n

def vstrncpy (s : Text) (n : Nat) : Text := s.take (n - 1)

/-- `drv_t` as `route` reads it; `mnt_len` is the length. -/
structure Drv where
  valid : Bool
  mnt : Text

/-- A round of the loop of `route`; the pair is `best` and `best_len`. -/
def routeRound (path : Text) (best : Option Nat × Nat) (x : Drv × Nat) : Option Nat × Nat :=
  let ml := x.1.mnt.length
  if ¬ x.1.valid then best
  else if vstrcmpN path x.1.mnt ml ≠ 0 then best
  else if path.getD ml 0 ≠ 0 ∧ path.getD ml 0 ≠ slash ∧ ml > 1 then best
  else if ml ≥ best.2 then (some x.2, ml) else best

/-- `if (*r == '/') r++`. -/
def skipSlash (r : Text) : Text := if r.headD 0 = slash then r.tail else r

/-- `route`: the driver and `rel`, or `none` for -1. -/
def route (drvs : List Drv) (path : Text) : Option (Nat × Text) :=
  let best := drvs.zipIdx.foldl (routeRound path) (none, 0)
  best.1.map fun i => (i, skipSlash (path.drop best.2))

/-- `vfs_register_driver`, with what `mount_fn` answers if there is one. -/
def vfsRegisterDriver (drvs : List Drv) (mnt : Text) (mount : Option Int) : Int × List Drv :=
  if drvs.length ≥ vfsMaxDrivers then (-28, drvs)
  else if mount.getD 0 < 0 then (mount.getD 0, drvs)
  else (drvs.length, drvs ++ [⟨true, vstrncpy mnt vfsPathMax⟩])

def vfsInvalidateDriver (drvs : List Drv) (id : Int) : List Drv :=
  if id < 0 ∨ id ≥ drvs.length then drvs else drvs.modify id.toNat fun d => { d with valid := false }

inductive VfsOp where
  | register (mnt : Text) (mount : Option Int)
  | invalidate (id : Int)

def vfsStep (drvs : List Drv) : VfsOp → Int × List Drv
  | .register mnt mount => vfsRegisterDriver drvs mnt mount
  | .invalidate id => (0, vfsInvalidateDriver drvs id)

/-! ## 2. What it is for -/

/-- `/`, or an absolute path that fits the entry and does not end with a slash. -/
def MountPoint (m : Text) : Prop :=
  m = [slash] ∨ m.head? = some slash ∧ m.length < vfsPathMax ∧ m.getLast? ≠ some slash ∧ 0 ∉ m

def VfsOp.Ok : VfsOp → Prop
  | .register mnt _ => MountPoint mnt
  | .invalidate _ => True

/-- **The mount points a history leaves**, in the order of their registration (the newest call is the
    first of the history): a registration that was successful adds one, an invalid driver has none. -/
def mounts : Log VfsOp Int → List (Option Text)
  | [] => []
  | (.register m _, r) :: h => if 0 ≤ r then mounts h ++ [some m] else mounts h
  | (.invalidate id, _) :: h => if id < 0 then mounts h else (mounts h).set id.toNat none

/-- A mount point equals the path or is followed in it by a slash; the root covers every path. -/
def Covers (m path : Text) : Prop := m = [slash] ∨ m = path ∨ m ++ [slash] <+: path

/-- **The longest mount point that covers the path, and the newest driver there.** -/
structure Chosen (ms : List (Option Text)) (path : Text) (i : Nat) (m : Text) : Prop where
  entry : ms[i]? = some (some m)
  covers : Covers m path
  longest : ∀ (j : Nat) m', ms[j]? = some (some m') → Covers m' path →
    m'.length < m.length ∨ m'.length = m.length ∧ j ≤ i

/-- **The answer for a path.** -/
def Routes (ms : List (Option Text)) (path : Text) : Option (Nat × Text) → Prop
  | some (i, rel) => ∃ m, Chosen ms path i m ∧ rel = skipSlash (path.drop m.length)
  | none => ∀ (j : Nat) m, ms[j]? = some (some m) → ¬ Covers m path

/-! ## 3. One mount point -/

variable {m path : Text}

theorem vstrcmpN_eq_zero (hm : 0 ∉ m) : vstrcmpN path m m.length = 0 ↔ m <+: path := by
  induction m generalizing path with
  | nil => simp [vstrcmpN]
  | cons x m ih =>
    obtain ⟨hx, hm⟩ := not_or.1 (mt mem_cons.2 hm)
    have hpos : x.toNat ≠ 0 := fun h => hx (UInt8.toNat_inj.1 h.symm)
    cases path with
    | nil => simp [vstrcmpN, hx, hpos]
    | cons y path =>
      rw [length_cons, vstrcmpN, headD_cons, headD_cons, cons_prefix_cons]
      by_cases hxy : y = x
      · rw [if_neg (not_not.2 hxy), if_neg (fun h => hx (by rw [← hxy, h])), tail_cons, tail_cons, ih hm]
        simp [hxy]
      · have : y.toNat ≠ x.toNat := fun h => hxy (UInt8.toNat_inj.1 h)
        rw [if_pos hxy]
        simp only [Ne.symm hxy, false_and, iff_false]
        omega

/-- **The two tests of `route` are the covering**, for a path that is absolute. -/
theorem covers_iff (hm : MountPoint m) (habs : path.head? = some slash) (hnul : 0 ∉ path) : Covers m path ↔
    vstrcmpN path m m.length = 0 ∧ ¬ (path.getD m.length 0 ≠ 0 ∧ path.getD m.length 0 ≠ slash ∧ m.length > 1) := by
  have hm0 : 0 ∉ m := hm.elim (fun h => by rw [h]; decide) fun h => h.2.2.2
  rw [vstrcmpN_eq_zero hm0]
  constructor
  · rintro (rfl | rfl | ⟨t, rfl⟩)
    · cases path with
      | nil => cases habs
      | cons x path => cases habs; simp
    · simp
    · simp [append_assoc]
  · rintro ⟨⟨t, rfl⟩, ht⟩
    cases t with
    | nil => exact .inr (.inl (append_nil m).symm)
    | cons x t =>
      have hx : x ≠ 0 := fun h => hnul (by simp [h])
      by_cases hs : x = slash
      · exact .inr (.inr ⟨t, by simp [hs]⟩)
      · have hl : ¬ m.length > 1 := by simpa [hx, hs] using ht
        rcases hm with h | ⟨h, -⟩
        · exact .inl h
        · cases m with
          | nil => cases h
          | cons y m =>
            cases h
            exact .inl (by simpa using hl)

/-! ## 4. The loop -/

/-- The mount point of an entry. -/
def Drv.view (d : Drv) : Option Text := if d.valid then some d.mnt else none

/-- What the loop has found. -/
def Found (ms : List (Option Text)) (path : Text) (best : Option Nat × Nat) : Prop :=
  (best = (none, 0) ∧ ∀ (j : Nat) m, ms[j]? = some (some m) → ¬ Covers m path) ∨
    ∃ i m, best = (some i, m.length) ∧ Chosen ms path i m

section Loop

variable {ms : List (Option Text)} {x : Option Text} {best : Option Nat × Nat}

theorem getElem?_concat {j : Nat} {y : Option Text} :
    (ms ++ [x])[j]? = some y ↔ ms[j]? = some y ∨ j = ms.length ∧ x = y := by
  rcases Nat.lt_trichotomy j ms.length with h | rfl | h
  · simp [getElem?_append_left h, Nat.ne_of_lt h]
  · simp
  · simp [getElem?_append_right h.le, Nat.ne_of_gt h, h.le, show j - ms.length ≠ 0 by omega]

theorem Found.skip (h : Found ms path best) (hx : ∀ m, x = some m → Covers m path → m.length < best.2) :
    Found (ms ++ [x]) path best := by
  rcases h with ⟨rfl, h⟩ | ⟨i, m, rfl, h⟩
  · refine .inl ⟨rfl, fun j m hj hc => ?_⟩
    rcases getElem?_concat.1 hj with hj | ⟨-, he⟩
    · exact h j m hj hc
    · exact absurd (hx m he hc) (Nat.not_lt_zero _)
  · refine .inr ⟨i, m, rfl, ⟨getElem?_concat.2 (.inl h.entry), h.covers, fun j m' hj hc => ?_⟩⟩
    rcases getElem?_concat.1 hj with hj | ⟨-, he⟩
    · exact h.longest j m' hj hc
    · exact .inl (hx m' he hc)

theorem Found.take (h : Found ms path best) (hc : Covers m path) (hle : best.2 ≤ m.length) :
    Found (ms ++ [some m]) path (some ms.length, m.length) := by
  refine .inr ⟨ms.length, m, rfl, ⟨by simp, hc, fun j m' hj hc' => ?_⟩⟩
  rcases getElem?_concat.1 hj with hj | ⟨rfl, he⟩
  · have hlt := (List.getElem?_eq_some_iff.1 hj).1
    rcases h with ⟨rfl, h⟩ | ⟨i, m₀, rfl, h⟩
    · exact absurd hc' (h j m' hj)
    · have := h.longest j m' hj hc'
      simp only at hle
      omega
  · cases he
    exact .inr ⟨rfl, Nat.le_refl _⟩

end Loop

theorem route_found {drvs : List Drv} (hm : ∀ d ∈ drvs, MountPoint d.mnt) (habs : path.head? = some slash)
    (hnul : 0 ∉ path) : Found (drvs.map Drv.view) path (drvs.zipIdx.foldl (routeRound path) (none, 0)) := by
  induction drvs using reverseRecOn with
  | nil => exact .inl ⟨rfl, by simp⟩
  | append_singleton drvs d ih =>
    have hf := ih fun d hd => hm d (mem_append_left _ hd)
    have hcov := covers_iff (hm d (by simp)) habs hnul
    rw [zipIdx_append, foldl_append, map_append, map_singleton]
    generalize drvs.zipIdx.foldl (routeRound path) (none, 0) = best at hf ⊢
    simp only [zipIdx_singleton, foldl_cons, foldl_nil, routeRound, Drv.view, Nat.zero_add]
    cases hv : d.valid with
    | false => exact hf.skip (by simp)
    | true =>
      simp only [not_true_eq_false, if_false, if_true]
      split
      · rename_i h
        exact hf.skip fun m hm hc => absurd (hcov.1 (by cases hm; exact hc)).1 h
      split
      · rename_i h
        exact hf.skip fun m hm hc => absurd h (hcov.1 (by cases hm; exact hc)).2
      rename_i h1 h2
      split
      · rename_i hle
        have := hf.take (hcov.2 ⟨not_not.1 h1, h2⟩) hle
        rwa [length_map] at this
      · rename_i hlt
        exact hf.skip fun m hm _ => by cases hm; omega

/-! ## 5. Histories -/

theorem view_modify (drvs : List Drv) (i : Nat) : (drvs.modify i fun d => { d with valid := false }).map Drv.view =
    (drvs.map Drv.view).set i none := by
  refine ext_getElem? fun j => ?_
  rw [getElem?_map, getElem?_modify, getElem?_set, getElem?_map, length_map]
  by_cases h : i = j
  · subst h
    by_cases hl : i < drvs.length
    · simp [hl, Drv.view]
    · simp [hl]
  · simp [h]

theorem table_reached {h : Log VfsOp Int} {drvs : List Drv}
    (hr : Reach (fun _ op => VfsOp.Ok op) vfsStep [] h drvs) :
    drvs.map Drv.view = mounts h ∧ ∀ d ∈ drvs, MountPoint d.mnt := by
  refine hr.inv (I := fun h drvs => drvs.map Drv.view = mounts h ∧ ∀ d ∈ drvs, MountPoint d.mnt)
    ⟨rfl, by simp⟩ fun h drvs op hI hok => ?_
  obtain ⟨hv, hm⟩ := hI
  cases op with
  | register mnt mount =>
    have hcopy : vstrncpy mnt vfsPathMax = mnt := by
      refine take_of_length_le ?_
      rcases hok with rfl | ⟨-, hl, -⟩
      · decide
      · exact Nat.le_sub_one_of_lt hl
    simp only [vfsStep, vfsRegisterDriver, mounts]
    split
    · exact ⟨by simpa using hv, hm⟩
    split
    · rename_i hneg
      exact ⟨by simpa [Int.not_le.2 hneg] using hv, hm⟩
    · refine ⟨by simp [hv, hcopy, Drv.view], fun d hd => ?_⟩
      rcases mem_append.1 hd with hd | hd
      · exact hm d hd
      · rw [mem_singleton.1 hd, hcopy]
        exact hok
  | invalidate id =>
    simp only [vfsStep, vfsInvalidateDriver, mounts]
    split
    · rename_i hid
      split
      · exact ⟨hv, hm⟩
      · rw [set_eq_of_length_le (by rw [← hv, length_map]; omega)]
        exact ⟨hv, hm⟩
    · rename_i hid
      rw [if_neg (fun h => hid (.inl h)), view_modify, hv]
      refine ⟨rfl, fun d hd => ?_⟩
      obtain ⟨j, hj, rfl⟩ := mem_iff_getElem.1 hd
      have := hm _ (getElem_mem (by simpa using hj))
      rw [getElem_modify]
      split <;> exact this

/-- **Routing**: in every state that registrations, of which some fail, and invalidations lead to, an
    absolute path goes to the newest valid driver at the longest mount point that covers it, with the
    rest of the path; and it goes nowhere exactly if there is none. -/
theorem vfs_routes_longest {h : Log VfsOp Int} {drvs : List Drv}
    (hr : Reach (fun _ op => VfsOp.Ok op) vfsStep [] h drvs) (path : Text)
    (habs : path.head? = some slash) (hnul : 0 ∉ path) : Routes (mounts h) path (route drvs path) := by
  obtain ⟨hv, hm⟩ := table_reached hr
  have hf := route_found hm habs hnul
  rw [hv] at hf
  unfold route
  rcases hf with ⟨he, hno⟩ | ⟨i, m, he, hch⟩
  · rw [he]
    exact hno
  · rw [he]
    exact ⟨m, hch, rfl⟩

/-- `/` and `/a` are registered, a third mount fails, and `/a/b` is `b` of the second driver. -/
theorem vfs_routes_second : Routes [some [47], some [47, 97]] [47, 97, 47, 98] (some (1, [98])) := by
  have h1 : Reach (fun _ op => VfsOp.Ok op) vfsStep [] _ _ := .step [] _ (.register [47] none) .start (by exact .inl rfl)
  have h2 := h1.step _ _ (.register [47, 97] none) (by exact .inr (by decide))
  have h3 := h2.step _ _ (.register [47, 98] (some (-5))) (by exact .inr (by decide))
  exact vfs_routes_longest h3 [47, 97, 47, 98] rfl (by decide)

/-- **The root is no other mount point**: `/a` goes to it, and no slash follows it there. -/
theorem vfs_root_covers : ∃ h drvs, Reach (fun _ op => VfsOp.Ok op) vfsStep [] h drvs ∧ mounts h = [some [slash]] ∧
    route drvs [47, 97] = some (0, [97]) ∧ ¬ ([slash] = [47, 97] ∨ [slash] ++ [slash] <+: [47, 97]) :=
  ⟨_, _, .step [] _ (.register [47] none) .start (by exact .inl rfl), rfl, rfl, by decide⟩

end Kobalt.Vfs
