/-
  Subject: THE DEPENDENCY ORDER OF DRIVERS (`security/tykid/src/tykid_registry.c`):
  `ty_dep_graph_add` collects dependencies in a bit matrix, `ty_dep_graph_toposort` orders the
  drivers by Kahn's rule and then reverses the order.

  Kahn's rule takes a driver when all it depends on is taken, so dependencies come FIRST before
  the reversal and LAST after it. `toposortRight_iff` says exactly for which graphs the final
  order still has every dependency before its dependents: those with a cycle (no order is returned)
  and those without any dependency.
-/
import Mathlib.Data.Nat.Bitwise
import Kobalt.Lib.Kahn

namespace Kobalt.Tykid

open Function Relation Finset List

/-! ## 1. The code -/

abbrev tykidMaxDrivers : Nat := 128

inductive DepStatus where
  | ok
  | generic
  | cycle
  deriving DecidableEq, Repr

/-- `ty_dep_graph_t`; `topo` is the array up to `topo_count`. -/
structure DepGraph where
  adj : Nat → Nat → Nat
  inDegree : Nat → Nat
  topo : List Nat
  nodeCount : Nat

/-- A zeroed graph with its number of nodes. -/
def DepGraph.zero (n : Nat) : DepGraph := ⟨fun _ _ => 0, fun _ => 0, [], n⟩

/-- `adj[u][v >> 6] & (1ULL << (v & 63))`. -/
def DepGraph.hasBit (g : DepGraph) (u v : Nat) : Bool := g.adj u (v >>> 6) &&& 1 <<< (v &&& 63) != 0

def tyDepGraphAdd (g : DepGraph) (u v : Nat) : DepStatus × DepGraph :=
  if u ≥ g.nodeCount ∨ v ≥ g.nodeCount then (.generic, g)
  else if g.hasBit u v then (.ok, g)
  else
    (.ok, { g with
      adj := update g.adj u (update (g.adj u) (v >>> 6) (g.adj u (v >>> 6) ||| 1 <<< (v &&& 63)))
      inDegree := update g.inDegree u ((g.inDegree u + 1) % 2 ^ 8) })

/-- One round of `for (v = 0; v < g->node_count; v++)` for the driver `u` just taken. -/
def relax (g : DepGraph) (u : Nat) (s : (Nat → Nat) × List Nat) (v : Nat) : (Nat → Nat) × List Nat :=
  if g.hasBit v u then
    let deg := (s.1 v + (2 ^ 8 - 1)) % 2 ^ 8
    (update s.1 v deg, if deg = 0 then s.2 ++ [v] else s.2)
  else s

/-- `while (qhead < qtail)`; the list `queue` is the array from `qhead` to `qtail`. -/
def drainQueue (g : DepGraph) : Nat → (Nat → Nat) → List Nat → List Nat → Option (List Nat)
  | 0, _, _, _ => none
  | _ + 1, _, [], topo => some topo
  | fuel + 1, inDeg, u :: queue, topo =>
    let s := (List.range g.nodeCount).foldl (relax g u) (inDeg, queue)
    drainQueue g fuel s.1 s.2 (topo ++ [u])

/-- `tmp = topo[i]; topo[i] = topo[count - 1 - i]; topo[count - 1 - i] = tmp`. -/
def swapEnds (topo : List Nat) (i : Nat) : List Nat :=
  (topo.set i (topo.getD (topo.length - 1 - i) 0)).set (topo.length - 1 - i) (topo.getD i 0)

/-- `ty_dep_graph_toposort`; `none` only if the loop had more rounds than nodes. -/
def tyDepGraphToposort (g : DepGraph) : Option (DepStatus × DepGraph) := do
  let queue := (List.range g.nodeCount).filter fun i => g.inDegree i = 0
  let topo ← drainQueue g (g.nodeCount + 1) g.inDegree queue []
  if topo.length ≠ g.nodeCount then some (.cycle, { g with topo := topo })
  else some (.ok, { g with topo := (List.range (topo.length / 2)).foldl swapEnds topo })

/-- A graph built by calls of `ty_dep_graph_add(g, u, v)`. -/
def buildGraph (n : Nat) (edges : List (Nat × Nat)) : DepGraph :=
  edges.foldl (fun g e => (tyDepGraphAdd g e.1 e.2).2) (DepGraph.zero n)

/-! ## 2. The bit matrix -/

section Bits

variable {g : DepGraph} {u v a b n : Nat}

theorem hasBit_eq : g.hasBit u v = (g.adj u (v / 64)).testBit (v % 64) := by
  have h1 : v >>> 6 = v / 64 := Nat.shiftRight_eq_div_pow v 6
  have h2 : v &&& 63 = v % 64 := Nat.and_two_pow_sub_one_eq_mod v 6
  grind [Nat.one_shiftLeft, DepGraph.hasBit, Nat.and_two_pow]

theorem hasBit_set {d : Nat → Nat} : ({ g with
    adj := update g.adj u (update (g.adj u) (v >>> 6) (g.adj u (v >>> 6) ||| 1 <<< (v &&& 63)))
    inDegree := d } : DepGraph).hasBit a b = (g.hasBit a b || (a == u && b == v)) := by
  have h1 : v >>> 6 = v / 64 := Nat.shiftRight_eq_div_pow v 6
  have h2 : v &&& 63 = v % 64 := Nat.and_two_pow_sub_one_eq_mod v 6
  have h3 : 1 <<< (v % 64) = 2 ^ (v % 64) := Nat.one_shiftLeft _
  rw [hasBit_eq, hasBit_eq, h1, h2, h3]
  by_cases ha : a = u
  · subst ha
    simp only [update_self, beq_self_eq_true, Bool.true_and]
    grind
  · simp only [update_of_ne ha, beq_eq_false_iff_ne.2 ha, Bool.false_and, Bool.or_false]

end Bits

/-- **The graph holds the dependencies `dep`** between its nodes, and counts them. -/
structure Holds (g : DepGraph) (n : Nat) (dep : Nat → Nat → Prop) [DecidableRel dep] : Prop where
  nodes : g.nodeCount = n
  bits : ∀ u < n, ∀ v < n, g.hasBit u v = true ↔ dep u v
  degree : ∀ u < n, g.inDegree u = (Kahn.need n dep [] u).card

section Build

variable {g : DepGraph} {n u v : Nat}

theorem card_need_le (dep : Nat → Nat → Prop) [DecidableRel dep] (T : List Nat) (u : Nat) :
    (Kahn.need n dep T u).card ≤ n :=
  (card_filter_le _ _).trans (card_range n).le

theorem tyDepGraphAdd_holds {dep r : Nat → Nat → Prop} [DecidableRel dep] [DecidableRel r]
    (h : Holds g n dep) (hn : n ≤ tykidMaxDrivers)
    (hdep : ∀ a < n, ∀ b < n, r a b ↔ dep a b ∨ (a = u ∧ b = v)) : Holds (tyDepGraphAdd g u v).2 n r := by
  unfold tyDepGraphAdd
  by_cases hout : u ≥ g.nodeCount ∨ v ≥ g.nodeCount
  · rw [if_pos hout]
    rw [h.nodes] at hout
    have hsame : ∀ a < n, ∀ b < n, r a b ↔ dep a b := fun a ha b hb => by grind
    refine ⟨h.nodes, fun a ha b hb => (h.bits a ha b hb).trans (hsame a ha b hb).symm, fun a ha => ?_⟩
    rw [h.degree a ha]
    congr 1
    ext b
    simp only [Kahn.mem_need]
    grind
  rw [if_neg hout]
  rw [h.nodes] at hout
  have hu : u < n := by omega
  have hv : v < n := by omega
  -- the needs of `u` gain `v`, those of the others stay
  have hneed : ∀ a < n, Kahn.need n r [] a =
      if a = u then insert v (Kahn.need n dep [] a) else Kahn.need n dep [] a := fun a ha => by
    ext b
    by_cases e : a = u
    · subst e
      rw [if_pos rfl, mem_insert]
      simp only [Kahn.mem_need, not_mem_nil, not_false_eq_true, and_true]
      grind
    · rw [if_neg e]
      simp only [Kahn.mem_need]
      grind
  by_cases hbit : g.hasBit u v = true
  · rw [if_pos hbit]
    have hold : dep u v := (h.bits u hu v hv).1 hbit
    refine ⟨h.nodes, fun a ha b hb => ?_, fun a ha => ?_⟩
    · grind [h.bits]
    · rw [h.degree a ha, hneed a ha]
      split
      · next e =>
        subst e
        rw [insert_eq_of_mem (Kahn.mem_need.2 ⟨hv, hold, not_mem_nil⟩)]
      · rfl
  · rw [if_neg hbit]
    have hnew : v ∉ Kahn.need n dep [] u := fun hm => hbit ((h.bits u hu v hv).2 (Kahn.mem_need.1 hm).2.1)
    refine ⟨h.nodes, fun a ha b hb => ?_, fun a ha => ?_⟩
    · grind [hasBit_set, h.bits]
    · rw [hneed a ha]
      by_cases e : a = u
      · subst e
        have hle := card_need_le (n := n) r [] a
        rw [hneed a ha, if_pos rfl, card_insert_of_notMem hnew] at hle
        simp only [if_pos, update_self, card_insert_of_notMem hnew]
        rw [h.degree a ha, Nat.mod_eq_of_lt (by simp only [tykidMaxDrivers] at hn; omega)]
      · simp only [if_neg e, update_of_ne e]
        exact h.degree a ha

/-- The dependencies added by a list of calls. -/
def edgeDep (edges : List (Nat × Nat)) (u v : Nat) : Prop := (u, v) ∈ edges

instance (edges : List (Nat × Nat)) : DecidableRel (edgeDep edges) := fun u v =>
  inferInstanceAs (Decidable ((u, v) ∈ edges))

/-- **A graph built by any calls in any order** holds the dependencies they added. -/
theorem buildGraph_holds (hn : n ≤ tykidMaxDrivers) (edges : List (Nat × Nat)) :
    Holds (buildGraph n edges) n (edgeDep edges) := by
  have hrun : ∀ (es done : List (Nat × Nat)) (g : DepGraph), Holds g n (edgeDep done) →
      Holds (es.foldl (fun g e => (tyDepGraphAdd g e.1 e.2).2) g) n (edgeDep (done ++ es)) := by
    intro es
    induction es with
    | nil =>
      intro done g h
      rwa [append_nil]
    | cons e es ih =>
      intro done g h
      have h1 := tyDepGraphAdd_holds (r := edgeDep (done ++ [e])) (u := e.1) (v := e.2) h hn
        fun a _ b _ => by simp [edgeDep, Prod.ext_iff]
      have h2 := ih (done ++ [e]) _ h1
      rwa [append_assoc] at h2
  refine hrun edges [] _ ⟨rfl, fun u _ v _ => ?_, fun u _ => ?_⟩
  · simp [edgeDep, DepGraph.hasBit, DepGraph.zero]
  · simp [edgeDep, DepGraph.zero, Kahn.need]

end Build

/-! ## 3. The order -/

section Order

variable {g : DepGraph} {n : Nat} {dep : Nat → Nat → Prop} [DecidableRel dep]

theorem relax_fold (u : Nat) (d : Nat → Nat) (queue : List Nat) (k : Nat) :
    (List.range k).foldl (relax g u) (d, queue) =
      (fun v => if v < k ∧ g.hasBit v u then (d v + (2 ^ 8 - 1)) % 2 ^ 8 else d v,
       queue ++ (List.range k).filter fun v => g.hasBit v u ∧ (d v + (2 ^ 8 - 1)) % 2 ^ 8 = 0) := by
  induction k with
  | zero => simp
  | succ k ih =>
    rw [range_succ, foldl_append, ih, foldl_cons, foldl_nil, filter_append, relax]
    by_cases hbit : g.hasBit k u = true
    · simp only [hbit, if_true, Nat.lt_irrefl, false_and, if_false]
      refine Prod.ext ?_ ?_
      · grind
      grind
    grind

theorem drainQueue_spec (hg : Holds g n dep) (hn : n ≤ tykidMaxDrivers) : ∀ (fuel : Nat) {T Q : List Nat}
    {d : Nat → Nat}, Kahn.Inv n dep T Q d → n < fuel + T.length →
    ∃ T' d', drainQueue g fuel d Q T = some T' ∧ Kahn.Inv n dep T' [] d' := by
  intro fuel
  induction fuel with
  | zero =>
    intro T Q d h hf
    have := h.length_le
    omega
  | succ fuel ih =>
    intro T Q d h hf
    cases Q with
    | nil => exact ⟨T, d, rfl, h⟩
    | cons u Q =>
      have hu : u < n := h.lt u (by simp)
      have hdeg : ∀ v < n, d v ≤ 128 := fun v hv => by grind [h.deg, card_need_le]
      have huT : u ∉ T := fun hm => (List.nodup_append.1 h.nodup).2.2 u hm u (by simp) rfl
      have hpos : ∀ v < n, dep v u → 0 < d v := fun v hv hdep => by
        rw [h.deg v hv, card_pos]
        exact ⟨u, Kahn.mem_need.2 ⟨hu, hdep, huT⟩⟩
      have hstep := h.pop (e := fun v => if v < n ∧ g.hasBit v u then (d v + (2 ^ 8 - 1)) % 2 ^ 8 else d v)
        (N := (List.range n).filter fun v => g.hasBit v u ∧ (d v + (2 ^ 8 - 1)) % 2 ^ 8 = 0)
        (fun v hv => ?_) (List.nodup_range.filter _) fun v => ?_
      · grind [drainQueue, hg.nodes, relax_fold]
      · by_cases hdep : dep v u
        · have h1 := hpos v hv hdep
          have h2 := hdeg v hv
          rw [if_pos hdep, if_pos ⟨hv, (hg.bits v hv u hu).2 hdep⟩]
          omega
        · rw [if_neg hdep, if_neg fun hb => hdep ((hg.bits v hv u hu).1 hb.2)]
      · simp only [List.mem_filter, List.mem_range, decide_eq_true_eq]
        refine and_congr_right fun hv => ?_
        rw [hg.bits v hv u hu]
        grind

theorem swapEnds_length (l : List Nat) (i : Nat) : (swapEnds l i).length = l.length := by
  simp [swapEnds]

theorem swapEnds_fold (l : List Nat) : (List.range (l.length / 2)).foldl swapEnds l = l.reverse := by
  have hrun : ∀ k ≤ l.length / 2, ((List.range k).foldl swapEnds l).length = l.length ∧
      ∀ i < l.length, ((List.range k).foldl swapEnds l).getD i 0 =
        if i < k ∨ l.length - k ≤ i then l.getD (l.length - 1 - i) 0 else l.getD i 0 := by
    intro k
    induction k with
    | zero => exact fun _ => ⟨rfl, fun i hi => by rw [if_neg (by omega)]; rfl⟩
    | succ k ih =>
      intro hk
      obtain ⟨hlen, hget⟩ := ih (by omega)
      rw [range_succ, foldl_append, foldl_cons, foldl_nil]
      refine ⟨(swapEnds_length _ _).trans hlen, fun i hi => ?_⟩
      generalize hm : (List.range k).foldl swapEnds l = m
      rw [hm] at hlen hget
      -- positions `k` and `length - 1 - k` are exchanged, every other one stays
      have hset : (swapEnds m k).getD i 0 = if i = l.length - 1 - k then m.getD k 0
          else if i = k then m.getD (l.length - 1 - k) 0 else m.getD i 0 := by
        simp only [swapEnds, getD_eq_getElem?_getD, List.getElem?_set, length_set, hlen]
        by_cases h1 : i = l.length - 1 - k
        · grind
        · grind
      rw [hset]
      by_cases h1 : i = l.length - 1 - k
      · rw [if_pos h1, hget k (by omega), if_neg (by omega), if_pos (by omega)]
        congr 1
        omega
      · rw [if_neg h1]
        by_cases h2 : i = k
        · rw [if_pos h2, hget _ (by omega), if_neg (by omega), if_pos (by omega), h2]
        · rw [if_neg h2, hget i hi]
          by_cases h3 : i < k ∨ l.length - k ≤ i
          · rw [if_pos h3, if_pos (by omega)]
          · rw [if_neg h3, if_neg (by omega)]
  obtain ⟨hlen, hget⟩ := hrun _ le_rfl
  refine ext_getElem (by rw [hlen, length_reverse]) fun i h1 h2 => ?_
  have hi : i < l.length := hlen ▸ h1
  have h := hget i hi
  rw [getD_eq_getElem _ _ h1] at h
  rw [h, getElem_reverse]
  split
  · rw [getD_eq_getElem]
  · next hmid =>
    have e : l.length - 1 - i = i := by omega
    grind

/-- **`ty_dep_graph_toposort`**: it answers CYCLE exactly for the graphs with a cycle; otherwise it
    has all nodes in the reverse of an order with dependencies first. -/
theorem tyDepGraphToposort_spec (hg : Holds g n dep) (hn : n ≤ tykidMaxDrivers) :
    ∃ T, tyDepGraphToposort g = some (if T.length = n then (.ok, { g with topo := T.reverse })
      else (.cycle, { g with topo := T })) ∧ (T.length = n ↔ ¬ Kahn.Cyclic n dep) ∧
      (T.length = n → T.Perm (List.range n) ∧ Kahn.Ordered n dep T) := by
  have hstart : Kahn.Inv n dep [] ((List.range n).filter fun i => g.inDegree i = 0) g.inDegree :=
    Kahn.Inv.start hg.degree (List.nodup_range.filter _) fun v => by
      simp [List.mem_filter, List.mem_range]
  obtain ⟨T, d, he, hT⟩ := drainQueue_spec hg hn (n + 1) hstart (by omega)
  refine ⟨T, ?_, ⟨fun h => ?_, fun h => by_contra fun hlen => h (hT.cycle hlen)⟩,
    fun h => ⟨hT.perm h, hT.order⟩⟩
  · unfold tyDepGraphToposort
    simp only [hg.nodes, he, Option.bind_eq_bind, Option.bind_some, swapEnds_fold]
    grind
  · exact hT.order.acyclic fun v hv => (hT.perm h).mem_iff.2 (List.mem_range.2 hv)

end Order

/-! ## 4. What the consumer needs -/

/-- `a` comes before `b`. -/
def Precedes (l : List Nat) (a b : Nat) : Prop := a ∈ l ∧ b ∈ l ∧ l.idxOf a < l.idxOf b

/-- **What `tykid_arbitrate` needs of the order**, which it walks from index 0: CYCLE exactly if there
    is a cycle, and otherwise all drivers, each one after everything it depends on. -/
def ToposortRight (n : Nat) (dep : Nat → Nat → Prop) (g : DepGraph) : Prop :=
  ∃ st g', tyDepGraphToposort g = some (st, g') ∧ (st = .cycle ↔ Kahn.Cyclic n dep) ∧
    (¬ Kahn.Cyclic n dep → st = .ok ∧ g'.topo.Perm (List.range n) ∧
      ∀ u v, Kahn.Edge n dep u v → Precedes g'.topo v u)

theorem idxOf_reverse {l : List Nat} (hl : l.Nodup) {a : Nat} (ha : a ∈ l) :
    l.reverse.idxOf a = l.length - 1 - l.idxOf a := by
  have hi := idxOf_lt_length_iff.2 ha
  have hlt : l.length - 1 - l.idxOf a < l.reverse.length := by
    rw [length_reverse]
    omega
  have hget : l.reverse.get ⟨_, hlt⟩ = a := by
    rw [get_eq_getElem, getElem_reverse]
    have e : l.length - 1 - (l.length - 1 - l.idxOf a) = l.idxOf a := by omega
    simp only [e, getElem_idxOf]
  conv_lhs => rw [← hget]
  exact (nodup_reverse.2 hl).idxOf_getElem _ _

/-- **The reversal puts dependents first.** The order is what the consumer needs exactly for the
    graphs with a cycle and for those without any dependency. -/
theorem toposortRight_iff (n : Nat) (hn : n ≤ tykidMaxDrivers) (edges : List (Nat × Nat)) :
    ToposortRight n (edgeDep edges) (buildGraph n edges) ↔
      Kahn.Cyclic n (edgeDep edges) ∨ ∀ u v, ¬ Kahn.Edge n (edgeDep edges) u v := by
  obtain ⟨T, he, hcyc, hT⟩ := tyDepGraphToposort_spec (buildGraph_holds hn edges) hn
  by_cases hc : Kahn.Cyclic n (edgeDep edges)
  · have hlen : T.length ≠ n := fun h => hcyc.1 h hc
    rw [if_neg hlen] at he
    exact ⟨fun _ => .inl hc, fun _ => ⟨_, _, he, iff_of_true rfl hc, fun h => absurd hc h⟩⟩
  have hlen := hcyc.2 hc
  obtain ⟨hperm, hord⟩ := hT hlen
  have hnd : T.Nodup := hperm.nodup_iff.2 List.nodup_range
  have hall : ∀ v < n, v ∈ T := fun v hv => hperm.mem_iff.2 (List.mem_range.2 hv)
  rw [if_pos hlen] at he
  constructor
  · rintro ⟨st, g', he', -, hright⟩
    rw [he] at he'
    obtain ⟨rfl, rfl⟩ := Prod.mk.inj (Option.some.inj he')
    refine .inr fun u v huv => ?_
    obtain ⟨-, -, hrev⟩ := (hright hc).2.2 u v huv
    have hfirst := (hord u (hall u huv.1) v huv).2
    grind [idxOf_reverse, huv.1]
  · rintro (h | hnone)
    · exact absurd h hc
    · exact ⟨_, _, he, iff_of_false (by simp) hc, fun _ =>
        ⟨rfl, (List.reverse_perm T).trans hperm, fun u v huv => absurd huv (hnone u v)⟩⟩

theorem toposortRight_cycle : ToposortRight 3 (edgeDep [(0, 1), (1, 2), (2, 1)]) (buildGraph 3 [(0, 1), (1, 2), (2, 1)]) :=
  (toposortRight_iff 3 (by decide) _).2 (.inl ⟨1, .tail (.single ⟨by decide, by decide, by simp [edgeDep]⟩)
    (⟨by decide, by decide, by simp [edgeDep]⟩ : Kahn.Edge 3 _ 2 1)⟩)

/-- **Driver 0 depends on driver 1 and comes first.** -/
theorem toposort_dependent_first : ¬ ToposortRight 2 (edgeDep [(0, 1)]) (buildGraph 2 [(0, 1)]) := by
  rintro ⟨st, g', he, hcyc, hright⟩
  have hrun : (tyDepGraphToposort (buildGraph 2 [(0, 1)])).map (fun r => (r.1, r.2.topo)) =
      some (.ok, [0, 1]) := by decide
  rw [he] at hrun
  obtain ⟨rfl, htopo⟩ := Prod.mk.inj (Option.some.inj hrun)
  have hac : ¬ Kahn.Cyclic 2 (edgeDep [(0, 1)]) := fun hc => absurd (hcyc.2 hc) (by decide)
  obtain ⟨-, -, hlt⟩ := (hright hac).2.2 0 1 ⟨by decide, by decide, by simp [edgeDep]⟩
  grind

end Kobalt.Tykid
