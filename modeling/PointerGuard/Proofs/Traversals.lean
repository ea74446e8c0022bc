import PointerGuard.Proofs.Mediation
import PointerGuard.Proofs.VisitOrder

/-!
# Traversals are exact

Breadth-first search lists the nodes it reaches by their distance from the start: all that wait are
at most one edge farther than the one that waits longest. Depth-first search leaves the target of an
edge before the source, unless a way leads back to the source.
-/

namespace PointerGuard

namespace Digraph

open DominatorTree (tangled)

variable {g : Digraph} {start node n k : Nat} {nodes done queue fresh : List Nat}

/-! ### Breadth-first order goes by distance -/

/-- Some walk from `start` to `n` has at most `k` edges. -/
def Within (g : Digraph) (start k n : Nat) : Prop :=
  ∃ nodes, g.Walk start nodes n ∧ nodes.length ≤ k + 1

/-- The distance from `start` to `a` is not greater than the one to `b`. -/
def NoFarther (g : Digraph) (start a b : Nat) : Prop :=
  ∀ k, g.Within start k b → g.Within start k a

theorem Within.step {m : Nat} (h : g.Within start k n) (edge : m ∈ g.succ n) :
    g.Within start (k + 1) m := by
  obtain ⟨nodes, walk, hlength⟩ := h
  exact ⟨_, walk.step edge, by simpa using hlength⟩

/-- A walk to a node that has not been found comes through one that waits. -/
theorem Frontier.exists_waiting (F : g.Frontier start done queue) (hout : n ∉ done ++ queue)
    (walk : g.Walk start nodes n) :
    ∃ p ∈ queue, ∃ way, g.Walk start way p ∧ way.length < nodes.length := by
  induction walk with
  | start => exact absurd F.start_mem hout
  | @step nodes last next walk edge ih =>
    by_cases hlast : last ∈ done ++ queue
    · rcases List.mem_append.mp hlast with hdone | hwaits
      · exact absurd (F.closed last hdone next edge) hout
      · exact ⟨last, hwaits, nodes, walk, by simp⟩
    · grind

/-- What has been found is in the order of distances, and is at most one edge farther than what
waits. -/
structure Layered (g : Digraph) (start : Nat) (done queue : List Nat) : Prop where
  sorted : (done ++ queue).Pairwise (g.NoFarther start)
  band : ∀ q ∈ queue, ∀ n ∈ done ++ queue, ∀ k, g.Within start k q → g.Within start (k + 1) n

theorem Layered.step (L : g.Layered start done (node :: queue))
    (F : g.Frontier start done (node :: queue))
    (h : g.discover (done ++ node :: queue) (g.succ node) = some fresh) :
    g.Layered start (done ++ [node]) (queue ++ fresh) := by
  obtain ⟨-, hfresh, -⟩ := discover_cases h
  have hsplit : (done ++ [node]) ++ (queue ++ fresh) = (done ++ node :: queue) ++ fresh := by simp
  have hwaits : ∀ q ∈ node :: queue, g.NoFarther start node q := by
    obtain ⟨-, hqueue, -⟩ := List.pairwise_append.mp L.sorted
    exact List.forall_mem_cons.mpr ⟨fun _ => id, (List.pairwise_cons.mp hqueue).1⟩
  -- what is new is farther than the node it has been found from
  have hnew : ∀ m ∈ fresh, ∀ k, g.Within start k m → ∃ j, k = j + 1 ∧ g.Within start j node := by
    rintro m hm k ⟨nodes, walk, hlength⟩
    obtain ⟨p, hp, way, hway, hless⟩ := F.exists_waiting (hfresh m hm).1 walk
    have hpos := List.length_pos_of_ne_nil hway.ne_nil
    exact ⟨k - 1, by omega, hwaits p hp _ ⟨way, hway, by omega⟩⟩
  have hnode : ∀ n ∈ (done ++ node :: queue) ++ fresh, ∀ k, g.Within start k node →
      g.Within start (k + 1) n := by grind [Layered.band, Within.step]
  have hfar : ∀ n ∈ (done ++ node :: queue) ++ fresh, ∀ m ∈ fresh, g.NoFarther start n m := by
    intro n hn m hm k hk
    obtain ⟨j, rfl, hj⟩ := hnew m hm k hk
    exact hnode n hn j hj
  constructor
  · grind [Layered.sorted, List.pairwise_of_forall_mem_list]
  · rw [hsplit]
    intro q hq n hn k hk
    refine hnode n hn k ?_
    rcases List.mem_append.mp hq with hq | hq
    · exact hwaits q (.tail _ hq) k hk
    · exact hfar node (by simp) q hq k hk

private theorem bfsFrom_sorted {fuel : Nat} (F : g.Frontier start done queue)
    (L : g.Layered start done queue) (h : g.bfsFrom fuel done queue = some nodes) :
    nodes.Pairwise (g.NoFarther start) := by
  induction fuel generalizing done queue with
  | zero =>
    cases h
    exact L.sorted.sublist (List.sublist_append_left _ _)
  | succ fuel ih =>
    cases queue with
    | nil =>
      cases h
      exact L.sorted.sublist (List.sublist_append_left _ _)
    | cons node queue =>
      simp only [bfsFrom, Option.bind_eq_bind, Option.bind_eq_some_iff] at h
      obtain ⟨fresh, hdiscover, hrest⟩ := h
      exact ih (F.step hdiscover) (L.step F hdiscover) hrest

theorem bfs_sorted (hstart : start < g.size) (h : g.bfs start = some nodes) :
    nodes.Pairwise (g.NoFarther start) := by
  rw [bfs, if_pos hstart] at h
  refine bfsFrom_sorted (.init hstart) ⟨by simp, ?_⟩ h
  simp only [List.nil_append, List.mem_singleton]
  rintro _ rfl _ rfl k ⟨nodes, walk, hlength⟩
  exact ⟨nodes, walk, by omega⟩

/-! ### Edges in postorder -/

/-- The edges of the nodes that an order lists lead to nodes before them, or to nodes from which a
way leads back. -/
def Advancing (g : Digraph) (order : List Nat) : Prop :=
  ∀ u ∈ order, ∀ v ∈ g.succ u, ¬g.Reaches v u → [v, u].Sublist order

/-- A node is listed when all its successors are listed or lead back to it. -/
theorem Advancing.append {order : List Nat} (A : g.Advancing order)
    (h : ∀ v ∈ g.succ node, v ∈ order ∨ g.Reaches v node) : g.Advancing (order ++ [node]) := by
  intro u hu v edge hback
  rcases List.mem_append.mp hu with hu | hu
  · exact (A u hu v edge hback).trans (List.sublist_append_left _ _)
  · grind

/-- The search keeps the order if what it has entered and not left leads to the node below which it
explores. -/
theorem Explores.advancing {s s' : Search} {nexts : List Nat} (h : g.Explores s nexts s')
    (hedges : ∀ y ∈ nexts, y ∈ g.succ node)
    (hopen : ∀ x ∈ s.entered, x ∈ s.order ∨ g.Reaches x node) (A : g.Advancing s.order) :
    g.Advancing s'.order := by
  induction h generalizing node with
  | done s => exact A
  | pass _ _ _ ih => exact ih (fun y hy => hedges y (.tail _ hy)) hopen A
  | @enter s below s' next rest _ _ hexplore _ ih ihrest =>
    have edge := hedges next (.head _)
    obtain ⟨found, D, hall⟩ := hexplore.discovers fun y hy => List.mem_reverse.mp hy
    have horder : below.order = s.order ++ found := D.order
    -- below `next`, what is open leads to `next` as well
    have hopen' : ∀ x ∈ next :: s.entered, x ∈ s.order ∨ g.Reaches x next := by
      refine List.forall_mem_cons.mpr ⟨.inr (.refl g next), fun x hx => ?_⟩
      exact (hopen x hx).imp_right fun hreach => hreach.step edge
    have A' := ih (fun y hy => List.mem_reverse.mp hy) hopen' A
    refine ihrest (fun y hy => hedges y (.tail _ hy)) (fun x hx => ?_) (A'.append fun v hv => ?_)
    · -- all that was entered since has been left
      rcases (D.entered x).mp hx with hx | hx
      · exact .inl (by simp [horder, hx])
      · grind
    · rcases (D.entered v).mp (hall v (List.mem_reverse.mpr hv)) with hv | hv
      · exact .inl (by simp [horder, hv])
      · exact (hopen' v hv).imp_left fun hv => by simp [horder, hv]

/-- Depth-first search lists the nodes that are reached from the start, which comes last, each once,
and an edge on no cycle leads backwards in its order. -/
theorem postorder_exact (R : g.InRange) (hstart : start < g.size) :
    ∃ order, g.postorder start = some order ∧ g.reversePostorder start = some order.reverse ∧
      order.Nodup ∧ (∀ n, n ∈ order ↔ g.Reaches start n) ∧ order.getLast? = some start ∧
      ∀ u v, u ∈ order → v ∈ order → v ∈ g.succ u → ¬g.Reaches v u →
        [v, u].Sublist order ∧ [u, v].Sublist order.reverse := by
  obtain ⟨_, hreverse⟩ := R.exists_reversePostorder hstart
  obtain ⟨order, horder, rfl⟩ := Option.map_eq_some_iff.mp hreverse
  have N := reversePostorder_numbering hstart hreverse
  have A : g.Advancing order := by
    obtain ⟨below, hbelow, heq⟩ := exists_explores hstart hreverse
    obtain ⟨found, D, hall⟩ := hbelow.discovers fun y hy => List.mem_reverse.mp hy
    rw [List.reverse_inj.mp heq]
    refine Advancing.append (hbelow.advancing (fun y hy => List.mem_reverse.mp hy) ?_ ?_) ?_
    · exact fun x hx => .inr (List.mem_singleton.mp hx ▸ .refl g _)
    · exact fun u hu => absurd hu (by simp)
    · intro v hv
      rcases (D.entered v).mp (hall v (List.mem_reverse.mpr hv)) with hv | hv
      · exact .inl (by simp [D.order, hv])
      · exact .inr (List.mem_singleton.mp hv ▸ .refl g _)
  refine ⟨order, horder, hreverse, List.nodup_reverse.mp N.nodup, fun n => ?_, ?_, ?_⟩
  · rw [← N.mem_iff, List.mem_reverse]
  · rw [← List.head?_reverse, N.head]
  · intro u v hu _ edge hback
    have hsub := A u hu v edge hback
    exact ⟨hsub, by simpa using hsub.reverse⟩

theorem postorder_exact_tangled :
    tangled.InRange ∧ 4 < tangled.size ∧ 2 ∈ tangled.succ 4 ∧ ¬tangled.Reaches 2 4 ∧
      ∃ order, tangled.postorder 4 = some order ∧ order.getLast? = some 4 ∧
        [2, 4].Sublist order := by
  have R : tangled.InRange := (closed_ofEdges (by decide)).inRange
  have hback : ¬tangled.Reaches 2 4 := by
    rw [← mem_bfs_iff (by decide) (show tangled.bfs 2 = some [2, 1, 3, 0] by decide +kernel)]
    decide
  have edge : 2 ∈ tangled.succ 4 := by decide
  obtain ⟨order, horder, -, -, hmem, hlast, hedges⟩ :=
    postorder_exact R (by decide : 4 < tangled.size)
  have hfour : tangled.Reaches 4 4 := .refl _ 4
  have hsub := hedges 4 2 ((hmem 4).mpr hfour) ((hmem 2).mpr (hfour.step edge)) edge hback
  exact ⟨R, by decide, edge, hback, order, horder, hlast, hsub.1⟩

end Digraph

/-! ### The blocks of a function -/

open DominatorTree (tangled)

/-- Breadth-first search lists the nodes that are reached from the start, each once and by their
distance. The other traversals reach the same nodes. In a function it comes to the dominators of a
block before the block, and so does the order in which checks are inserted, which lists all
blocks. -/
theorem breadthFirst_exact {g : Digraph} {start : Nat} {f : Function} (R : g.InRange)
    (hstart : start < g.size) (htargets : ∀ a b, b ∈ f.successors a → b.index < f.blocks.size) :
    (∃ nodes flags order, g.bfs start = some nodes ∧ g.reachable start = some flags ∧
      g.postorder start = some order ∧ nodes.Nodup ∧ (∀ n, n ∈ nodes ↔ g.Reaches start n) ∧
      nodes.Pairwise (g.NoFarther start) ∧ flags.length = g.size ∧
      (∀ n, flags[n]? = some true ↔ n ∈ nodes) ∧ ∀ n, n ∈ order ↔ n ∈ nodes) ∧
    ∃ blocks order, f.bfsBlocks? = some blocks ∧ f.checkOrder? = some order ∧ order.Nodup ∧
      (∀ b, b ∈ order ↔ b.index < f.blocks.size) ∧
      ∀ a b, b.index < f.blocks.size → f.StrictlyDominates a b →
        [a, b].Sublist blocks ∧ [a, b].Sublist order := by
  constructor
  · obtain ⟨nodes, hnodes⟩ := R.exists_bfs start
    obtain ⟨order, horder⟩ := R.exists_reversePostorder hstart
    obtain ⟨order, horder', rfl⟩ := Option.map_eq_some_iff.mp horder
    have hmem := fun n => Digraph.mem_bfs_iff hstart hnodes (n := n)
    refine ⟨nodes, _, order, hnodes, congrArg (Option.map _) hnodes, horder',
      Digraph.nodup_bfs hstart hnodes, hmem, Digraph.bfs_sorted hstart hnodes, by simp, fun n => ?_,
      fun n => ?_⟩
    · rcases Nat.lt_or_ge n g.size with hn | hn
      · simp [List.getElem?_range hn]
      · have hout : n ∉ nodes := fun h =>
          absurd ((Digraph.bfs_frontier hstart hnodes).lt_size n (by simpa using h)) (by omega)
        simp [hout, hn]
    · rw [hmem, ← (Digraph.reversePostorder_numbering hstart horder).mem_iff, List.mem_reverse]
  · obtain ⟨blocks, hblocks⟩ := f.exists_bfsBlocks htargets
    have horder : f.checkOrder? = some (blocks ++ f.blockIds.filter (· ∉ blocks)) :=
      congrArg (Option.map _) hblocks
    obtain ⟨hnodup, hall⟩ := f.checkOrder?_spec horder
    refine ⟨blocks, _, hblocks, horder, hnodup, fun b => ⟨fun hb => ?_, hall b⟩, ?_⟩
    · rcases List.mem_append.mp hb with hb | hb
      · exact Function.index_lt_of_mem_bfsBlocks hblocks hb
      · exact Function.mem_blockIds.mp (List.mem_of_mem_filter hb)
    · intro a b hb hdom
      have hmem : b ∈ blocks := (f.mem_bfsBlocks_iff (by omega) hblocks).mpr hdom.2.2.1
      obtain ⟨front, rest, rfl⟩ := List.append_of_mem hmem
      have ha := f.mem_front_of_strictlyDominates (by omega) hblocks rfl hdom
      have hsub : [a, b].Sublist (front ++ b :: rest) :=
        (List.singleton_sublist.mpr ha).append (List.cons_sublist_cons.mpr (List.nil_sublist rest))
      exact ⟨hsub, hsub.trans (List.sublist_append_left _ _)⟩

theorem breadthFirst_exact_sideDoor :
    tangled.InRange ∧ 4 < tangled.size ∧
      (∀ a b, b ∈ sideDoor.successors a → b.index < sideDoor.blocks.size) ∧
      (∃ nodes, tangled.bfs 4 = some nodes ∧ nodes.Pairwise (tangled.NoFarther 4) ∧ 0 ∈ nodes) ∧
      ∃ order, sideDoor.checkOrder? = some order ∧ ⟨3⟩ ∈ order ∧
        sideDoor.StrictlyDominates ⟨1⟩ ⟨2⟩ ∧ [⟨1⟩, ⟨2⟩].Sublist order := by
  have R : tangled.InRange := (Digraph.closed_ofEdges (by decide)).inRange
  obtain ⟨-, V⟩ := (Function.verify_eq_ok_iff (f := sideDoor) (by decide)).mp (by decide +kernel)
  have htargets := (Function.wellLaid_iff.mpr V.shaped).targets
  have hdom : sideDoor.StrictlyDominates ⟨1⟩ ⟨2⟩ :=
    (Function.strictlyDominates_iff (by decide) (dominators_gatherEnv (by decide +kernel))).mp
      (by decide +kernel)
  obtain ⟨⟨nodes, -, -, hnodes, -, -, -, hmem, hsorted, -⟩, _, order, -, horder, -, hall, hfirst⟩ :=
    breadthFirst_exact R (by decide : 4 < tangled.size) htargets
  have hzero : tangled.Reaches 4 0 :=
    (((Digraph.Reaches.refl _ 4).step (b := 4) (c := 2) (by decide)).step (c := 3) (by decide)).step
      (by decide)
  exact ⟨R, by decide, htargets, ⟨nodes, hnodes, hsorted, (hmem 0).mpr hzero⟩, order, horder,
    (hall ⟨3⟩).mpr (by decide), hdom, (hfirst _ _ (by decide) hdom).2⟩

end PointerGuard
