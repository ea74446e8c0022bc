import PointerGuard.Digraph

/-!
# Dominator trees

A node dominates another if every path from the entry to the second passes through the first.
Linking each reached node to its closest strict dominator gives a tree, which is found by
refinement: nodes are taken in reverse postorder, the link of each is set to the meet of the links
of its linked predecessors, and the sweeps are repeated until one of them changes nothing.
-/

namespace PointerGuard

/-- The closest strict dominators of the nodes of a graph. -/
structure DominatorTree where
  /-- The node at which paths start. -/
  entry : Nat
  /-- By node, its closest strict dominator. -/
  idom : Array (Option Nat)
  /-- The nodes reached from the entry, in reverse postorder. -/
  reached : List Nat
  deriving Repr

namespace DominatorTree

/-! ### Refinement -/

/-- The link of a node, if it has one. -/
def link (links : Array (Option Nat)) (node : Nat) : Option Nat := links[node]?.join

/-- The first node at which the links that start at `a` and `b` meet. The later of the two in
`order` is the one that climbs. -/
def meet (order : List Nat) (links : Array (Option Nat)) : Nat → Nat → Nat → Nat
  | 0, a, _ => a
  | fuel + 1, a, b =>
    if a = b then a
    else if order.idxOf b < order.idxOf a then
      match link links a with
      | some next => meet order links fuel next b
      | none => b
    else
      match link links b with
      | some next => meet order links fuel a next
      | none => a

/-- The meet of the linked predecessors of a node, if it has any. There is no answer if a
predecessor is not a node. -/
def meetAll (order : List Nat) (links : Array (Option Nat)) (preds : List Nat) :
    Option (Option Nat) :=
  preds.foldlM (fun found pred =>
    if pred < links.size then
      if (link links pred).isNone then some found
      else match found with
        | none => some (some pred)
        | some current => some (some (meet order links (2 * links.size) pred current))
    else none) none

/-- Link a node to where the chains of its predecessors meet. -/
def relink (g : Digraph) (order : List Nat) (links : Array (Option Nat)) (node : Nat) :
    Option (Array (Option Nat)) := do
  match ← meetAll order links (g.pred node) with
  | none => return links
  | some parent => return links.setIfInBounds node (some parent)

/-- Relink every reached node but the entry, in reverse postorder. -/
def sweep (g : Digraph) (order : List Nat) (links : Array (Option Nat)) :
    Option (Array (Option Nat)) :=
  order.tail.foldlM (relink g order) links

/-- Sweep until nothing changes, but no more often than the first argument says. -/
def refine (g : Digraph) (order : List Nat) :
    Nat → Array (Option Nat) → Option (Array (Option Nat))
  | 0, links => some links
  | fuel + 1, links => do
    let next ← sweep g order links
    if next = links then return links else refine g order fuel next

/-- The dominator tree of a graph from an entry. While links are refined the entry is linked to
itself, so that climbing ends there. There is no answer if a reached node has an edge to or from a
node that does not exist. -/
def compute (g : Digraph) (entry : Nat) : Option DominatorTree := do
  let unlinked := Array.replicate g.size none
  if g.size ≤ entry then
    return ⟨entry, unlinked, []⟩
  let order ← g.reversePostorder entry
  let links ← refine g order (g.size * g.size + 1) (unlinked.setIfInBounds entry (some entry))
  return ⟨entry, links.setIfInBounds entry none, order⟩

/-! ### Queries -/

/-- The number of nodes. -/
def size (t : DominatorTree) : Nat := t.idom.size

/-- Whether a node is reached from the entry. -/
def isReachable (t : DominatorTree) (node : Nat) : Bool := node ∈ t.reached

/-- The closest strict dominator of a node. The entry and unreached nodes have none. -/
def idom? (t : DominatorTree) (node : Nat) : Option Nat := link t.idom node

/-- The links from a node upwards, at most as many as the first argument says. -/
def chainFrom (t : DominatorTree) : Nat → Nat → List Nat
  | 0, node => [node]
  | fuel + 1, node =>
    match t.idom? node with
    | some parent => node :: t.chainFrom fuel parent
    | none => [node]

/-- A node, its closest strict dominator, that one's, and so on up to the root. -/
def chain (t : DominatorTree) (node : Nat) : List Nat := t.chainFrom t.size node

/-- Does `a` dominate `b`? Every node dominates itself; otherwise both must be reached. -/
def dominates (t : DominatorTree) (a b : Nat) : Bool :=
  a = b || (t.isReachable a && t.isReachable b && (t.chain b).contains a)

/-- Whether `a` dominates another node `b`. -/
def strictlyDominates (t : DominatorTree) (a b : Nat) : Bool :=
  a ≠ b && t.dominates a b

/-- The number of links from a node up to the root. -/
def depth (t : DominatorTree) (node : Nat) : Nat := (t.chain node).length - 1

/-- The nodes linked to a node, in ascending order. -/
def children (t : DominatorTree) (node : Nat) : List Nat :=
  (List.range t.size).filter fun child => t.idom? child = some node

end DominatorTree

end PointerGuard
