/-!
# Directed graphs

A finite directed graph whose nodes are numbered from 0, with lists of successors and predecessors.
An edge may name a node that the graph does not have; a traversal that comes across it has no
answer.
-/

namespace PointerGuard

/-- A finite directed graph on the nodes `0, …, size - 1`. -/
structure Digraph where
  /-- The number of nodes. -/
  size : Nat
  /-- Where the edges that leave a node lead, in order. -/
  succ : Nat → List Nat
  /-- Where the edges that enter a node come from, in order. -/
  pred : Nat → List Nat

namespace Digraph

/-- The graph with the given edges, taken in list order. -/
def ofEdges (size : Nat) (edges : List (Nat × Nat)) : Digraph where
  size := size
  succ node := edges.filterMap fun (source, target) => if source = node then some target else none
  pred node := edges.filterMap fun (source, target) => if target = node then some source else none

/-! ### Breadth-first order -/

/-- The targets that have not been seen, each once and in order. There is no answer if a target is
not a node. -/
def discover (g : Digraph) (seen : List Nat) : List Nat → Option (List Nat)
  | [] => some []
  | node :: rest =>
    if node < g.size then
      if node ∈ seen then g.discover seen rest
      else (g.discover (node :: seen) rest).map (node :: ·)
    else none

/-- Breadth-first search with the nodes of `done` expanded and those of `queue` waiting. -/
def bfsFrom (g : Digraph) : Nat → (done queue : List Nat) → Option (List Nat)
  | 0, done, _ => some done
  | _ + 1, done, [] => some done
  | fuel + 1, done, node :: queue => do
    let fresh ← g.discover (done ++ node :: queue) (g.succ node)
    g.bfsFrom fuel (done ++ [node]) (queue ++ fresh)

/-- The nodes reached from `start` in breadth-first order. Every node waits at most once, so the
search expands no more than `size` of them. -/
def bfs (g : Digraph) (start : Nat) : Option (List Nat) :=
  if start < g.size then g.bfsFrom g.size [] [start] else some []

/-- For every node, whether it is reached from `start`. -/
def reachable (g : Digraph) (start : Nat) : Option (List Bool) :=
  (g.bfs start).map fun nodes => (List.range g.size).map (· ∈ nodes)

/-! ### Postorder -/

/-- How far a depth-first search has come: the nodes it has entered, and those it has left, in the
order in which it left them. -/
structure Search where
  /-- The nodes entered so far. -/
  entered : List Nat
  /-- The nodes left so far, the first one first. -/
  order : List Nat

/-- Explore all that lies below an entered node, then leave it. The first argument bounds the depth
of the search. -/
def visit (g : Digraph) : Nat → Search → Nat → Option Search
  | 0, _, _ => none
  | depth + 1, search, node => do
    let below ← (g.succ node).reverse.foldlM (fun (search : Search) next =>
      if next < g.size then
        if next ∈ search.entered then some search
        else g.visit depth { search with entered := next :: search.entered } next
      else none) search
    return { below with order := below.order ++ [node] }

/-- The nodes reached from `start`, in the order in which a depth-first search leaves them. A search
path repeats no node, so it is never deeper than `size`. -/
def postorder (g : Digraph) (start : Nat) : Option (List Nat) :=
  if start < g.size then (g.visit g.size ⟨[start], []⟩ start).map Search.order else some []

/-- The postorder, last node first. -/
def reversePostorder (g : Digraph) (start : Nat) : Option (List Nat) :=
  (g.postorder start).map List.reverse

end Digraph

end PointerGuard
