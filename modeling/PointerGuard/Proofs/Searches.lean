import Mathlib.Data.List.Nodup
import Mathlib.Data.List.Perm.Subperm
import PointerGuard.Proofs.Walks

/-!
# Searches of graphs

What a depth-first search has found below a node: nodes it had not entered before, each left once,
with all their successors entered and each found along an edge from a node that is left later. So in
reverse order every node but the first comes after one of its predecessors.

Breadth-first search lists the nodes that are reached, each once. While it runs, the nodes that are
done and those that wait are different, and the edges of the former lead to one or the other.
-/

namespace PointerGuard.Digraph

variable {node start : Nat} {fresh queue done : List Nat} {s' : Search}

/-- A search explores what lies below a list of nodes: it passes over those it has entered, and
enters the others, explores what lies below them and leaves them. -/
inductive Explores (g : Digraph) : Search → List Nat → Search → Prop where
  | done (s : Search) : Explores g s [] s
  /-- A node has been entered before. -/
  | pass {s s' : Search} {next : Nat} {rest : List Nat} : next < g.size → next ∈ s.entered →
    Explores g s rest s' → Explores g s (next :: rest) s'
  /-- A node is entered, and left when its successors have been explored. -/
  | enter {s below s' : Search} {next : Nat} {rest : List Nat} : next < g.size → next ∉ s.entered →
    Explores g { s with entered := next :: s.entered } (g.succ next).reverse below →
    Explores g { below with order := below.order ++ [next] } rest s' →
    Explores g s (next :: rest) s'

/-- Between `s` and `s'` a search has found the nodes `found` below `node`. -/
structure Discovers (g : Digraph) (node : Nat) (s : Search) (found : List Nat) (s' : Search) :
    Prop where
  order : s'.order = s.order ++ found
  entered : ∀ x, x ∈ s'.entered ↔ x ∈ found ∨ x ∈ s.entered
  nodup : found.Nodup
  fresh : ∀ x ∈ found, x ∉ s.entered
  bounded : ∀ x ∈ found, x < g.size
  closed : ∀ x ∈ found, ∀ y ∈ g.succ x, y ∈ s'.entered
  reached : ∀ x ∈ found, g.Reaches node x
  parent : ∀ x ∈ found, x ∈ g.succ node ∨ ∃ y, x ∈ g.succ y ∧ [x, y].Sublist found

/-- An order of the nodes reached from `entry`, which comes first: no node is listed twice, and
every other node has a predecessor before it. -/
structure Numbering (g : Digraph) (entry : Nat) (order : List Nat) : Prop where
  nodup : order.Nodup
  mem_iff : ∀ x, x ∈ order ↔ g.Reaches entry x
  bounded : ∀ x ∈ order, x < g.size
  head : order.head? = some entry
  earlier : ∀ x ∈ order, x ≠ entry → ∃ y ∈ order, x ∈ g.succ y ∧ order.idxOf y < order.idxOf x

variable {g : Digraph} {order s nexts l : List Nat} {entry x : Nat}

namespace Discovers

variable {s s'' : Search} {found more : List Nat}

theorem refl (g : Digraph) (node : Nat) (s : Search) : g.Discovers node s [] s := by
  constructor <;> simp

theorem trans (h : g.Discovers node s found s') (h' : g.Discovers node s' more s'') :
    g.Discovers node s (found ++ more) s'' where
  order := by rw [h'.order, h.order, List.append_assoc]
  entered x := by rw [h'.entered, h.entered, List.mem_append]; tauto
  nodup := by
    refine List.Nodup.append h.nodup h'.nodup fun x hx hx' => h'.fresh x hx' ?_
    exact (h.entered x).mpr (.inl hx)
  fresh x hx := by
    rcases List.mem_append.mp hx with hx | hx
    · exact h.fresh x hx
    · exact fun hs => h'.fresh x hx ((h.entered x).mpr (.inr hs))
  bounded x hx := (List.mem_append.mp hx).elim (h.bounded x) (h'.bounded x)
  closed x hx y hy := by
    rcases List.mem_append.mp hx with hx | hx
    · exact (h'.entered y).mpr (.inr (h.closed x hx y hy))
    · exact h'.closed x hx y hy
  reached x hx := (List.mem_append.mp hx).elim (h.reached x) (h'.reached x)
  parent x hx := by
    rcases List.mem_append.mp hx with hx | hx
    · grind [parent, List.Sublist.trans, List.sublist_append_left]
    · grind [parent, List.Sublist.trans, List.sublist_append_right]

/-- Leaving a node that was entered along an edge: it is found after all that lies below it. -/
theorem leave {next : Nat} (edge : next ∈ g.succ node) (hsize : next < g.size)
    (hfresh : next ∉ s.entered)
    (h : g.Discovers next { s with entered := next :: s.entered } found s')
    (hclosed : ∀ y ∈ g.succ next, y ∈ s'.entered) :
    g.Discovers node s (found ++ [next]) { s' with order := s'.order ++ [next] } where
  order := by simp [h.order]
  entered x := by simp only [h.entered, List.mem_cons, List.mem_append]; tauto
  nodup := by
    refine List.Nodup.append h.nodup (by simp) fun x hx hx' => h.fresh x hx ?_
    simp [List.mem_singleton.mp hx']
  fresh x hx := by
    rcases List.mem_append.mp hx with hx | hx
    · exact fun hs => h.fresh x hx (.tail _ hs)
    · rwa [List.mem_singleton.mp hx]
  bounded x hx := by
    rcases List.mem_append.mp hx with hx | hx
    · exact h.bounded x hx
    · rwa [List.mem_singleton.mp hx]
  closed x hx y hy := by
    rcases List.mem_append.mp hx with hx | hx
    · exact h.closed x hx y hy
    · grind
  reached x hx := by
    have hnext : g.Reaches node next := (Reaches.refl g node).step edge
    rcases List.mem_append.mp hx with hx | hx
    · exact hnext.trans (h.reached x hx)
    · rwa [List.mem_singleton.mp hx]
  parent x hx := by
    rcases List.mem_append.mp hx with hx | hx
    · rcases h.parent x hx with edge' | ⟨y, edge', hsub⟩
      · -- what hangs on `next` itself was found before it, and `next` comes last
        grind
      · grind
    · rw [List.mem_singleton.mp hx]
      exact .inl edge

end Discovers

/-! ### Visits -/

/-- A visit that comes to an end explores what lies below its node. The induction is on the depth,
and inside it on the successors that are still to be explored. -/
theorem explores_of_visit {depth : Nat} {s : Search} (h : g.visit depth s node = some s') :
    ∃ below, g.Explores s (g.succ node).reverse below ∧
      s' = { below with order := below.order ++ [node] } := by
  induction depth generalizing node s s' with
  | zero => simp [visit] at h
  | succ depth ih =>
    simp only [visit, Option.bind_eq_bind, Option.bind_eq_some_iff, Option.pure_def,
      Option.some.injEq] at h
    obtain ⟨below, hfold, rfl⟩ := h
    refine ⟨below, ?_, rfl⟩
    generalize (g.succ node).reverse = nexts at hfold
    induction nexts generalizing s with
    | nil =>
      simp only [List.foldlM_nil, Option.pure_def, Option.some.injEq] at hfold
      exact hfold ▸ .done s
    | cons next rest ihrest =>
      simp only [List.foldlM_cons, Option.bind_eq_bind, Option.bind_eq_some_iff] at hfold
      obtain ⟨t, hstep, hrest⟩ := hfold
      split at hstep
      · rename_i hsize
        split at hstep
        · rename_i hmem
          cases hstep
          exact .pass hsize hmem (ihrest hrest)
        · rename_i hmem
          obtain ⟨belowNext, hbelow, rfl⟩ := ih hstep
          exact .enter hsize hmem hbelow (ihrest hrest)
      · cases hstep

/-- One step of a search that keeps a stack. On top is the node it is at, with the successors that
wait there: the first one is passed over or entered, and without any the node is left. -/
inductive StackStep (g : Digraph) :
    List (Nat × List Nat) × Search → List (Nat × List Nat) × Search → Prop where
  | pass {node next rest stack} {s : Search} : next < g.size → next ∈ s.entered →
    StackStep g ((node, next :: rest) :: stack, s) ((node, rest) :: stack, s)
  | enter {node next rest stack} {s : Search} : next < g.size → next ∉ s.entered →
    StackStep g ((node, next :: rest) :: stack, s)
      ((next, (g.succ next).reverse) :: (node, rest) :: stack,
        { s with entered := next :: s.entered })
  | leave {node stack} {s : Search} :
    StackStep g ((node, []) :: stack, s) (stack, { s with order := s.order ++ [node] })

theorem StackStep.unique : Relator.RightUnique g.StackStep := by
  rintro _ _ _ ⟨⟩ ⟨⟩ <;> first | rfl | contradiction

/-- What waits at the top of the stack is explored, whatever lies below it. -/
theorem Explores.steps {s : Search} (h : g.Explores s nexts s') (node : Nat)
    (stack : List (Nat × List Nat)) :
    Relation.ReflTransGen g.StackStep ((node, nexts) :: stack, s)
      (stack, { s' with order := s'.order ++ [node] }) := by
  induction h generalizing node stack with
  | done s => exact .single .leave
  | pass hsize hmem _ ih => exact .head (.pass hsize hmem) (ih node stack)
  | enter hsize hmem _ _ ih ihrest =>
    exact .head (.enter hsize hmem) ((ih _ _).trans (ihrest node stack))

/-- Popping a stack until it is empty computes a visit. -/
theorem stackSteps_of_visit {depth : Nat} {s : Search} (h : g.visit depth s node = some s') :
    Relation.ReflTransGen g.StackStep ([(node, (g.succ node).reverse)], s) ([], s') := by
  obtain ⟨below, hbelow, rfl⟩ := explores_of_visit h
  exact hbelow.steps node []

theorem Explores.discovers {s : Search} (h : g.Explores s nexts s')
    (hedges : ∀ y ∈ nexts, y ∈ g.succ node) :
    ∃ found, g.Discovers node s found s' ∧ ∀ y ∈ nexts, y ∈ s'.entered := by
  induction h generalizing node with
  | done s => exact ⟨[], .refl g node s, by simp⟩
  | pass _ hmem _ ih =>
    -- it was entered before, perhaps further up on the way to `node`
    obtain ⟨found, hfound, hall⟩ := ih fun y hy => hedges y (.tail _ hy)
    exact ⟨found, hfound, List.forall_mem_cons.mpr ⟨(hfound.entered _).mpr (.inr hmem), hall⟩⟩
  | enter hsize hmem _ _ ih ihrest =>
    -- it is explored one level deeper and left again
    obtain ⟨below, hbelow, hclosed⟩ := ih fun y hy => List.mem_reverse.mp hy
    obtain ⟨found, hfound, hall⟩ := ihrest fun y hy => hedges y (.tail _ hy)
    have hleave := hbelow.leave (hedges _ (.head _)) hsize hmem fun y hy =>
      hclosed y (List.mem_reverse.mpr hy)
    have hnext :=
      (hleave.entered _).mpr (.inl (List.mem_append_right _ (List.mem_singleton_self _)))
    exact ⟨_, hleave.trans hfound,
      List.forall_mem_cons.mpr ⟨(hfound.entered _).mpr (.inr hnext), hall⟩⟩

/-! ### Whole searches -/

/-- A set of nodes that has the entry and is closed under edges has all reached nodes. -/
theorem Reaches.mem_of_closed (hentry : entry ∈ s) (hclosed : ∀ y ∈ s, ∀ z ∈ g.succ y, z ∈ s)
    (h : g.Reaches entry x) : x ∈ s := by
  obtain ⟨nodes, walk⟩ := h
  induction walk with
  | start => exact hentry
  | step _ edge ih => exact hclosed _ ih _ edge

/-- In a list without repetitions, order is order of positions. -/
theorem idxOf_lt_idxOf_of_sublist {y : Nat} (hl : l.Nodup) (h : [x, y].Sublist l) :
    l.idxOf x < l.idxOf y := by
  induction l with
  | nil => simp at h
  | cons z l ih => grind

theorem exists_explores (hstart : start < g.size) (h : g.reversePostorder start = some order) :
    ∃ below, g.Explores ⟨[start], []⟩ (g.succ start).reverse below ∧
      order = (below.order ++ [start]).reverse := by
  simp only [reversePostorder, postorder, hstart, if_true, Option.map_eq_some_iff] at h
  obtain ⟨_, ⟨s', hvisit, rfl⟩, rfl⟩ := h
  obtain ⟨below, hbelow, rfl⟩ := explores_of_visit hvisit
  exact ⟨below, hbelow, rfl⟩

theorem reversePostorder_numbering (hentry : entry < g.size)
    (h : g.reversePostorder entry = some order) : g.Numbering entry order := by
  obtain ⟨below, hbelow, rfl⟩ := exists_explores hentry h
  obtain ⟨found, hfound, hall⟩ := hbelow.discovers fun y hy => List.mem_reverse.mp hy
  have horder : (below.order ++ [entry]).reverse = entry :: found.reverse := by
    simp [hfound.order]
  have hentered : ∀ x, x ∈ entry :: found.reverse ↔ x ∈ below.entered := by
    simp only [List.mem_cons, List.mem_reverse, hfound.entered]
    tauto
  have hnodup : (entry :: found.reverse).Nodup := by
    refine List.nodup_cons.mpr ⟨fun hmem => ?_, List.nodup_reverse.mpr hfound.nodup⟩
    exact hfound.fresh entry (List.mem_reverse.mp hmem) (by simp)
  rw [horder]
  refine ⟨hnodup, fun x => ⟨fun hx => ?_, fun hx => ?_⟩, fun x hx => ?_, rfl, fun x hx hne => ?_⟩
  · grind [Reaches.refl, Discovers.reached]
  · -- what was found together with the entry is closed under successors
    refine hx.mem_of_closed (by simp) fun y hy z hz => (hentered z).mpr ?_
    rcases List.mem_cons.mp hy with rfl | hy
    · exact hall z (List.mem_reverse.mpr hz)
    · exact hfound.closed y (List.mem_reverse.mp hy) z hz
  · rcases List.mem_cons.mp hx with rfl | hx
    · exact hentry
    · exact hfound.bounded x (List.mem_reverse.mp hx)
  · -- in postorder some predecessor is found later, so in reverse it comes earlier
    have hmem : x ∈ found := by simpa [hne] using hx
    rcases hfound.parent x hmem with edge | ⟨y, edge, hsub⟩
    · grind
    · have hsub' : [y, x].Sublist (entry :: found.reverse) := by grind
      exact ⟨y, hsub'.subset (by simp), edge, idxOf_lt_idxOf_of_sublist hnodup hsub'⟩

theorem Numbering.length_le (N : g.Numbering entry order) : order.length ≤ g.size := by
  have hsub : order.Subperm (List.range g.size) :=
    List.subperm_of_subset N.nodup fun x hx => List.mem_range.mpr (N.bounded x hx)
  simpa using hsub.length_le

/-! ### Breadth-first order -/

variable {nodes : List Nat}

theorem discover_cases {seen targets : List Nat} (h : g.discover seen targets = some fresh) :
    fresh.Nodup ∧ (∀ n ∈ fresh, n ∉ seen ∧ n ∈ targets ∧ n < g.size) ∧
      ∀ n ∈ targets, n ∈ seen ∨ n ∈ fresh := by
  induction targets generalizing seen fresh with
  | nil =>
    cases h
    simp
  | cons node rest ih =>
    rw [discover] at h
    split at h
    · split at h
      · -- the node has been seen, and the rest is discovered as before
        grind
      · -- the node is new, and from now on it is seen
        obtain ⟨later, hlater, rfl⟩ := Option.map_eq_some_iff.mp h
        obtain ⟨hnodup, hfresh, hall⟩ := ih hlater
        refine ⟨List.nodup_cons.mpr ⟨fun hmem => ?_, hnodup⟩, fun n hn => ?_, fun n hn => ?_⟩
        · exact (hfresh node hmem).1 (.head _)
        · grind
        · grind
    · cases h

/-- What holds while the search runs: of the nodes found so far some are done, and the others
wait. -/
structure Frontier (g : Digraph) (start : Nat) (done queue : List Nat) : Prop where
  nodup : (done ++ queue).Nodup
  lt_size : ∀ n ∈ done ++ queue, n < g.size
  reaches : ∀ n ∈ done ++ queue, g.Reaches start n
  start_mem : start ∈ done ++ queue
  closed : ∀ n ∈ done, ∀ m ∈ g.succ n, m ∈ done ++ queue

theorem Frontier.step (F : g.Frontier start done (node :: queue))
    (h : g.discover (done ++ node :: queue) (g.succ node) = some fresh) :
    g.Frontier start (done ++ [node]) (queue ++ fresh) := by
  obtain ⟨hnodup, hfresh, hall⟩ := discover_cases h
  have hsplit : (done ++ [node]) ++ (queue ++ fresh) = (done ++ node :: queue) ++ fresh := by simp
  -- the node moves from the front of the queue to what is done, and only `fresh` is new
  refine ⟨?_, ?_, ?_, ?_, ?_⟩
  all_goals rw [hsplit]
  · grind [List.nodup_append, Frontier.nodup]
  · grind [Frontier.lt_size]
  · intro n hn
    rcases List.mem_append.mp hn with hn | hn
    · exact F.reaches n hn
    · exact (F.reaches node (by simp)).step (hfresh n hn).2.1
  · exact List.mem_append_left _ F.start_mem
  · grind [Frontier.closed]

/-- The search ends with an empty queue: different nodes below a bound are no more than the
bound. -/
theorem bfsFrom_frontier {fuel : Nat} (F : g.Frontier start done queue)
    (hfuel : g.size ≤ fuel + done.length) (h : g.bfsFrom fuel done queue = some nodes) :
    g.Frontier start nodes [] := by
  induction fuel generalizing done queue with
  | zero =>
    obtain rfl := Option.some.inj h
    -- `done` alone is as long as the graph has nodes, so nothing is left in the queue
    have hlength : (done ++ queue).length ≤ g.size := by
      have hsub : (done ++ queue) ⊆ List.range g.size :=
        fun n hn => List.mem_range.mpr (F.lt_size n hn)
      simpa using (List.Nodup.subperm F.nodup hsub).length_le
    have hqueue : queue = [] := by grind [List.length_append, List.length_eq_zero_iff]
    rwa [hqueue] at F
  | succ fuel ih =>
    cases queue with
    | nil =>
      cases h
      exact F
    | cons node queue =>
      simp only [bfsFrom, Option.bind_eq_bind, Option.bind_eq_some_iff] at h
      obtain ⟨fresh, hdiscover, hrest⟩ := h
      refine ih (F.step hdiscover) ?_ hrest
      simp only [List.length_append, List.length_singleton]
      omega

theorem Frontier.init (hstart : start < g.size) : g.Frontier start [] [start] := by
  refine ⟨by simp, by simpa using hstart, fun n hn => ?_, by simp, by simp⟩
  obtain rfl := List.mem_singleton.mp hn
  exact .refl g n

section

variable (hstart : start < g.size) (h : g.bfs start = some nodes)

include hstart h

theorem bfs_frontier : g.Frontier start nodes [] := by
  rw [bfs, if_pos hstart] at h
  exact bfsFrom_frontier (.init hstart) (by simp) h

theorem nodup_bfs : nodes.Nodup := by
  simpa using (bfs_frontier hstart h).nodup

theorem mem_bfs_iff {n : Nat} : n ∈ nodes ↔ g.Reaches start n := by
  have F := bfs_frontier hstart h
  constructor
  · intro hn
    exact F.reaches n (by simpa using hn)
  · intro hreaches
    refine hreaches.mem_of_closed (by simpa using F.start_mem) fun a ha b hb => ?_
    simpa using F.closed a ha b hb

end

end PointerGuard.Digraph
