import PointerGuard.Proofs.Gathering
import PointerGuard.Proofs.PathValidity

/-!
# Definitions are visited before uses

A breadth-first search lists every node but its start behind one of its predecessors, so it lists
the dominators of a node before the node itself. The passes go through the blocks in this order and
come to a definition before any use of it, phis apart.
-/

namespace PointerGuard

namespace Digraph

variable {g : Digraph} {start node d : Nat} {nodes front rest targets : List Nat}

/-! ### The search ends -/

private theorem exists_discover (seen : List Nat) (h : ∀ n ∈ targets, n < g.size) :
    ∃ fresh, g.discover seen targets = some fresh := by
  induction targets generalizing seen with
  | nil => exact ⟨[], rfl⟩
  | cons n rest ih =>
    have hn : n < g.size := h n (.head _)
    have hrest : ∀ m ∈ rest, m < g.size := fun m hm => h m (.tail _ hm)
    by_cases hseen : n ∈ seen
    · obtain ⟨fresh, hfresh⟩ := ih seen hrest
      exact ⟨fresh, by simp [discover, hn, hseen, hfresh]⟩
    · obtain ⟨fresh, hfresh⟩ := ih (n :: seen) hrest
      exact ⟨n :: fresh, by simp [discover, hn, hseen, hfresh]⟩

/-- No search comes across a node that does not exist. -/
theorem InRange.exists_bfsFrom (R : g.InRange) (fuel : Nat) (done queue : List Nat) :
    ∃ nodes, g.bfsFrom fuel done queue = some nodes := by
  induction fuel generalizing done queue with
  | zero => exact ⟨done, rfl⟩
  | succ fuel ih =>
    cases queue with
    | nil => exact ⟨done, rfl⟩
    | cons n queue =>
      obtain ⟨fresh, hfresh⟩ := exists_discover (done ++ n :: queue) (R n)
      obtain ⟨nodes, hnodes⟩ := ih (done ++ [n]) (queue ++ fresh)
      exact ⟨nodes, by simp [bfsFrom, hfresh, hnodes]⟩

theorem InRange.exists_bfs (R : g.InRange) (start : Nat) : ∃ nodes, g.bfs start = some nodes := by
  rw [bfs]
  split
  · exact R.exists_bfsFrom _ _ _
  · exact ⟨[], rfl⟩

/-! ### Predecessors come first -/

/-- Every node of a list is the start, or comes behind one of its predecessors. -/
def Follows (g : Digraph) (start : Nat) (nodes : List Nat) : Prop :=
  ∀ front n rest, nodes = front ++ n :: rest → n = start ∨ ∃ m ∈ front, n ∈ g.succ m

namespace Follows

theorem of_append (F : g.Follows start (front ++ rest)) : g.Follows start front := by
  rintro before n after rfl
  exact F before n (after ++ rest) (by simp)

/-- Successors of a node that is listed may be added. -/
theorem append (F : g.Follows start nodes) (hnode : node ∈ nodes)
    (hrest : ∀ n ∈ rest, n ∈ g.succ node) : g.Follows start (nodes ++ rest) := by
  intro before n after hsplit
  rcases List.append_eq_append_iff.mp hsplit with ⟨middle, rfl, hmiddle⟩ | ⟨middle, rfl, hmiddle⟩
  · grind
  · cases middle with
    | nil => grind
    | cons m middle =>
      cases hmiddle
      exact F before n middle rfl

/-- What dominates a listed node without being it is listed before it. The induction is on how much
is listed before the node, since the predecessor it follows has less before it. -/
theorem mem_of_dominates (F : g.Follows start nodes) (hsplit : nodes = front ++ node :: rest)
    (hdom : g.Dominates start d node) (hne : d ≠ node) : d ∈ front := by
  induction hlength : front.length using Nat.strongRecOn generalizing front node rest with
  | _ length ih =>
    rcases F front node rest hsplit with rfl | ⟨m, hm, edge⟩
    · -- the walk that stays at the start comes through no other node
      have hmem := hdom _ .start
      exact absurd (List.mem_singleton.mp hmem) hne
    · by_cases hdm : d = m
      · exact hdm ▸ hm
      · obtain ⟨before, after, rfl⟩ := List.append_of_mem hm
        have hshorter : before.length < length := by
          rw [← hlength]
          simp
        have hsplit' : nodes = before ++ m :: (after ++ node :: rest) := by simpa using hsplit
        have hmem := ih before.length hshorter hsplit' (hdom.pred hne edge) hdm rfl
        exact List.mem_append_left _ hmem

end Follows

theorem bfsFrom_follows {fuel : Nat} {done queue : List Nat} (F : g.Follows start (done ++ queue))
    (h : g.bfsFrom fuel done queue = some nodes) : g.Follows start nodes := by
  induction fuel generalizing done queue with
  | zero =>
    cases h
    exact F.of_append
  | succ fuel ih =>
    cases queue with
    | nil =>
      cases h
      exact F.of_append
    | cons n queue =>
      simp only [bfsFrom, Option.bind_eq_bind, Option.bind_eq_some_iff] at h
      obtain ⟨fresh, hdiscover, hrest⟩ := h
      have hfresh : ∀ m ∈ fresh, m ∈ g.succ n :=
        fun m hm => ((discover_cases hdiscover).2.1 m hm).2.1
      have hnode : n ∈ done ++ n :: queue := by simp
      exact ih (by simpa using F.append hnode hfresh) hrest

theorem bfs_follows (h : g.bfs start = some nodes) : g.Follows start nodes := by
  rw [bfs] at h
  split at h
  · refine bfsFrom_follows (fun front n rest hsplit => ?_) h
    cases front with
    | nil => exact .inl (List.cons.inj hsplit).1.symm
    | cons m front => simp at hsplit
  · cases h
    intro front n rest hsplit
    simp at hsplit

end Digraph

namespace Function

variable {f : Function} {a b : BlockId} {x y : ValueId} {blocks : List BlockId}

/-! ### The blocks of a function -/

theorem exists_bfsBlocks (h : ∀ a b, b ∈ f.successors a → b.index < f.blocks.size) :
    ∃ blocks, f.bfsBlocks? = some blocks := by
  cases hentry : f.entryId? with
  | none => exact ⟨[], by rw [bfsBlocks?, hentry]⟩
  | some entry =>
    obtain ⟨nodes, hnodes⟩ := (flowGraph_closed h).inRange.exists_bfs entry.index
    exact ⟨nodes.map BlockId.mk, by simp [bfsBlocks?, hentry, hnodes]⟩

theorem Valid.exists_bfsBlocks (V : f.Valid) : ∃ blocks, f.bfsBlocks? = some blocks :=
  Function.exists_bfsBlocks (wellLaid_iff.mpr V.shaped).targets

section

variable (hblocks : 0 < f.blocks.size) (h : f.bfsBlocks? = some blocks)

include hblocks h

theorem bfsBlocks?_eq :
    ∃ nodes, f.flowGraph.bfs 0 = some nodes ∧ blocks = nodes.map BlockId.mk := by
  have hentry : f.entryId? = some ⟨0⟩ := by
    rw [entryId?]
    simpa using Array.ne_empty_of_size_pos hblocks
  rw [bfsBlocks?, hentry] at h
  obtain ⟨nodes, hnodes, rfl⟩ := Option.map_eq_some_iff.mp h
  exact ⟨nodes, hnodes, rfl⟩

theorem mem_bfsBlocks_iff : b ∈ blocks ↔ f.Reachable b := by
  obtain ⟨nodes, hnodes, rfl⟩ := bfsBlocks?_eq hblocks h
  rw [Reachable, ← Digraph.mem_bfs_iff hblocks hnodes, List.mem_map]
  constructor
  · rintro ⟨n, hn, rfl⟩
    exact hn
  · exact fun hb => ⟨b.index, hb, rfl⟩

/-- A block is listed behind all blocks that strictly dominate it. -/
theorem mem_front_of_strictlyDominates {front rest : List BlockId}
    (hsplit : blocks = front ++ b :: rest) (hdom : f.StrictlyDominates a b) : a ∈ front := by
  obtain ⟨nodes, hnodes, rfl⟩ := bfsBlocks?_eq hblocks h
  obtain ⟨before, after, rfl, rfl, hafter⟩ := List.map_eq_append_iff.mp hsplit
  obtain ⟨n, after, rfl, rfl, -⟩ := List.map_eq_cons_iff.mp hafter
  obtain ⟨hne, -, -, hdom⟩ := hdom
  have hindex : a.index ≠ n := fun e => hne (BlockId.ext e)
  have hmem := (Digraph.bfs_follows hnodes).mem_of_dominates rfl hdom hindex
  exact List.mem_map.mpr ⟨a.index, hmem, rfl⟩

end

theorem index_lt_of_mem_bfsBlocks (h : f.bfsBlocks? = some blocks) (hb : b ∈ blocks) :
    b.index < f.blocks.size := by
  rcases Nat.eq_zero_or_pos f.blocks.size with hsize | hsize
  · simp only [bfsBlocks?, entryId?, Array.size_eq_zero_iff.mp hsize] at h
    cases h
    simp at hb
  · obtain ⟨nodes, hnodes, rfl⟩ := bfsBlocks?_eq hsize h
    obtain ⟨n, hn, rfl⟩ := List.mem_map.mp hb
    exact (Digraph.bfs_frontier hsize hnodes).lt_size n (by simpa using hn)

/-- When the instructions of the program are visited block by block, all that an instruction may use
has been visited before it. -/
theorem mem_visited_of_before (V : f.Valid) (hblocks : 0 < f.blocks.size)
    (h : f.bfsBlocks? = some blocks) {front rest : List ValueId}
    (hsplit : blocks.flatMap f.programInsts = front ++ y :: rest) (hx : f.isProgramInst x)
    (hbefore : f.Before x y) : x ∈ front := by
  have T := V.tidy
  have hnodup := T.nodup_programInsts (nodup_bfsBlocks h)
  -- cut the list of blocks at the one of `y`, and that block at `y`
  obtain ⟨b, hb, hy⟩ :=
    List.mem_flatMap.mp (show y ∈ blocks.flatMap f.programInsts by simp [hsplit])
  obtain ⟨before, after, rfl⟩ := List.append_of_mem hb
  obtain ⟨top, bottom, hblock⟩ := List.append_of_mem hy
  have hcut : (before ++ b :: after).flatMap f.programInsts =
      (before.flatMap f.programInsts ++ top) ++ y :: (bottom ++ after.flatMap f.programInsts) := by
    simp [hblock]
  have hfront : front = before.flatMap f.programInsts ++ top := by
    grind [List.nodup_append, List.nodup_cons, List.append_cons_inj_of_notMem]
  rw [hfront]
  obtain ⟨hyb, hprogram⟩ := List.mem_filter.mp hy
  rcases hbefore with hparam | hprecedes | ⟨a, c, hxa, hyc, hdom⟩
  · obtain ⟨ty, position, hvalue⟩ := hparam
    simp [isProgramInst, inst?, hvalue] at hx
  · apply List.mem_append_right
    -- selecting the instructions of the program keeps what precedes `y`
    obtain ⟨c, hyc, hxc⟩ := hprecedes
    obtain rfl := T.block_eq hyc hyb
    have hselect := takeWhile_ne_filter (y := y) f.isProgramInst hprogram (f.instsOf c)
    have hmem : x ∈ ((f.instsOf c).filter f.isProgramInst).takeWhile (· ≠ y) := by grind
    have htop : ∀ z ∈ top, decide (z ≠ y) = true := by grind
    rw [show (f.instsOf c).filter f.isProgramInst = top ++ y :: bottom from hblock,
      List.takeWhile_append_of_pos htop] at hmem
    simpa using hmem
  · apply List.mem_append_left
    obtain rfl := T.block_eq hyc hyb
    have hfirst := mem_front_of_strictlyDominates hblocks h rfl hdom
    exact List.mem_flatMap.mpr ⟨a, hfirst, List.mem_filter.mpr ⟨hxa, hx⟩⟩

/-! ### Blocks of a function that has grown -/

/-- Where control gets with some edges it gets with more of them. -/
theorem Reachable.mono {g : Function}
    (hsuccessors : ∀ a c, c ∈ g.successors a → c ∈ f.successors a) (h : g.Reachable b) :
    f.Reachable b := by
  obtain ⟨nodes, walk⟩ := h
  rw [Reachable]
  generalize b.index = n at walk ⊢
  induction walk with
  | start => exact .refl _ _
  | step _ edge ih => grind [Digraph.Reaches.step, mem_succ_flowGraph]

/-- Growth opens no way to a block. -/
theorem Grows.reachable {g : Function} {t : RoutineTable} {p : Routine → Prop} (G : f.Grows t p g)
    (T : f.Tidy) (h : g.Reachable b) : f.Reachable b := by
  refine .mono (fun a c hc => ?_) h
  rcases G.successors_eq T a with hsame | ⟨-, -, hlost⟩
  · rwa [hsame] at hc
  · rw [hlost] at hc
    cases hc

/-- The blocks are those reached in something that the function has grown to. -/
def WalksOnceGrown (f : Function) (t : RoutineTable) (blocks : List BlockId) : Prop :=
  ∃ g, f.Grows t Any g ∧ g.bfsBlocks? = some blocks

section

variable {t : RoutineTable} (h : f.WalksOnceGrown t blocks)

include h

theorem WalksOnceGrown.nodup : blocks.Nodup := by
  obtain ⟨g, -, hblocks⟩ := h
  exact nodup_bfsBlocks hblocks

theorem WalksOnceGrown.reachable (T : f.Tidy) (hsize : 0 < f.blocks.size) (hb : b ∈ blocks) :
    f.Reachable b := by
  obtain ⟨g, G, hblocks⟩ := h
  exact G.reachable T ((mem_bfsBlocks_iff (G.size_blocks ▸ hsize) hblocks).mp hb)

/-- The blocks that are visited are those control may come to, unless insertions have cut the way
out of the first block. -/
theorem WalksOnceGrown.mem_iff (T : f.Tidy) (hsize : 0 < f.blocks.size)
    (hentry : f.successors ⟨0⟩ ≠ [] → f.programInsts ⟨0⟩ ≠ []) : b ∈ blocks ↔ f.Reachable b := by
  refine ⟨h.reachable T hsize, fun hb => ?_⟩
  obtain ⟨g, G, hblocks⟩ := h
  refine (mem_bfsBlocks_iff (G.size_blocks ▸ hsize) hblocks).mpr
    (Reachable.mono (fun a c hc => ?_) hb)
  rcases G.successors_eq T a with hsame | ⟨hzero, hnone, -⟩
  · rwa [hsame]
  · obtain rfl : a = ⟨0⟩ := BlockId.ext hzero
    exact absurd hnone (hentry (List.ne_nil_of_mem hc))

/-- What the blocks list is of the program, and control may come to it. -/
theorem WalksOnceGrown.exists_block (T : f.Tidy) (hsize : 0 < f.blocks.size)
    (hx : x ∈ blocks.flatMap f.programInsts) : ∃ b, f.Reachable b ∧ x ∈ f.programInsts b := by
  obtain ⟨b, hb, hx⟩ := List.mem_flatMap.mp hx
  exact ⟨b, h.reachable T hsize hb, hx⟩

end

end Function

end PointerGuard
