import Mathlib.Data.Finset.Card
import Mathlib.Data.List.Chain
import PointerGuard.Proofs.Dominators

/-!
# Dominator trees are computed and exact

On a graph whose edges all join two of its nodes the computation succeeds. The tree links each
reached node to its closest strict dominator, and climbing it lists the dominators of a node, each
once, up to the entry.
-/

namespace PointerGuard

variable {g : Digraph} {b d : Nat} {order : List Nat} {links : Array (Option Nat)}

/-! ### Closed graphs -/

namespace Digraph

/-- All edges join two nodes of the graph, and the edges that enter a node are those that leave
another for it. -/
structure Closed (g : Digraph) : Prop where
  bounded : ∀ {a b}, b ∈ g.succ a → a < g.size ∧ b < g.size
  converse : ∀ a b, a ∈ g.pred b ↔ b ∈ g.succ a

/-- Of all nodes that strictly dominate `b`, the closest one is dominated by the others. -/
structure ClosestDominator (g : Digraph) (entry d b : Nat) : Prop where
  dominates : g.Dominates entry d b
  ne : d ≠ b
  closest : ∀ a, g.Dominates entry a b → a ≠ b → g.Dominates entry a d

variable {entry a depth : Nat} {s s' : Search}

theorem Closed.inRange (C : g.Closed) : g.InRange :=
  fun _ _ h => (C.bounded h).2

theorem closed_ofEdges {size : Nat} {edges : List (Nat × Nat)}
    (h : ∀ edge ∈ edges, edge.1 < size ∧ edge.2 < size) : (ofEdges size edges).Closed := by
  have hsucc : ∀ a b, b ∈ (ofEdges size edges).succ a ↔ (a, b) ∈ edges := by simp [ofEdges]
  have hpred : ∀ a b, a ∈ (ofEdges size edges).pred b ↔ (a, b) ∈ edges := by simp [ofEdges]
  refine ⟨fun {a b} hb => h (a, b) ((hsucc a b).mp hb), fun a b => ?_⟩
  rw [hpred, hsucc]

theorem ClosestDominator.eq (h : g.ClosestDominator entry a b) (h' : g.ClosestDominator entry d b)
    (hb : g.Reaches entry b) : a = d :=
  (h'.closest a h.dominates h.ne).antisymm (h.closest d h'.dominates h'.ne)
    (h'.dominates.reaches hb)

/-! ### Searches end

A visit enters a node that was not entered before, so the number of nodes that are left bounds how
deep the search can get. -/

def unentered (g : Digraph) (s : Search) : Finset Nat := Finset.range g.size \ s.entered.toFinset

theorem unentered_subset (h : ∀ x ∈ s.entered, x ∈ s'.entered) :
    g.unentered s' ⊆ g.unentered s := by
  apply Finset.sdiff_subset_sdiff (Finset.Subset.refl _)
  intro x hx
  simpa using h x (by simpa using hx)

theorem card_unentered_cons_lt {next : Nat} (hsize : next < g.size) (hfresh : next ∉ s.entered) :
    (g.unentered { s with entered := next :: s.entered }).card < (g.unentered s).card := by
  apply Finset.card_lt_card
  refine ⟨unentered_subset fun x hx => .tail _ hx, fun hsub => ?_⟩
  have hmem : next ∈ g.unentered s := by simp [unentered, hsize, hfresh]
  simpa [unentered] using hsub hmem

private theorem entered_visit {node : Nat} (h : g.visit depth s node = some s') :
    ∀ x ∈ s.entered, x ∈ s'.entered := by
  obtain ⟨below, hbelow, rfl⟩ := explores_of_visit h
  obtain ⟨found, hfound, -⟩ := hbelow.discovers fun y hy => List.mem_reverse.mp hy
  exact fun x hx => (hfound.entered x).mpr (.inr hx)

theorem InRange.exists_visit (R : g.InRange) (hdepth : (g.unentered s).card < depth) (node : Nat) :
    ∃ s', g.visit depth s node = some s' := by
  induction depth generalizing node s with
  | zero => omega
  | succ depth ih =>
    -- the inner induction is on the successors still to be explored
    suffices hlist : ∀ (nexts : List Nat) (t : Search), (∀ y ∈ nexts, y < g.size) →
        (g.unentered t).card ≤ depth →
        ∃ below, nexts.foldlM (fun (search : Search) next =>
          if next < g.size then
            if next ∈ search.entered then some search
            else g.visit depth { search with entered := next :: search.entered } next
          else none) t = some below by
      obtain ⟨below, hbelow⟩ := hlist (g.succ node).reverse s
        (fun y hy => R node y (List.mem_reverse.mp hy)) (by omega)
      refine ⟨{ below with order := below.order ++ [node] }, ?_⟩
      rw [visit, hbelow]
      rfl
    intro nexts
    induction nexts with
    | nil => exact fun t _ _ => ⟨t, rfl⟩
    | cons next rest ihrest =>
      intro t hsizes hleft
      have hsize : next < g.size := hsizes next (by simp)
      have hrest : ∀ y ∈ rest, y < g.size := fun y hy => hsizes y (.tail _ hy)
      simp only [List.foldlM_cons, hsize]
      by_cases hmem : next ∈ t.entered
      · simp only [hmem]
        exact ihrest t hrest hleft
      · have hless := card_unentered_cons_lt hsize hmem
        obtain ⟨t', ht'⟩ := ih (hless.trans_le hleft) next
        have hsub : g.unentered t' ⊆ g.unentered { t with entered := next :: t.entered } :=
          unentered_subset (entered_visit ht')
        have hcard := Finset.card_le_card hsub
        simp only [hmem, ht']
        exact ihrest t' hrest (by omega)

theorem InRange.exists_reversePostorder (R : g.InRange) (hentry : entry < g.size) :
    ∃ order, g.reversePostorder entry = some order := by
  have hall : (g.unentered ⟨[], []⟩).card = g.size := by simp [unentered]
  have hdepth : (g.unentered ⟨[entry], []⟩).card < g.size :=
    (card_unentered_cons_lt hentry (by simp)).trans_eq hall
  obtain ⟨s', hs'⟩ := R.exists_visit hdepth entry
  refine ⟨s'.order.reverse, ?_⟩
  simp only [reversePostorder, postorder, hentry, if_true, hs', Option.map_some]

end Digraph

/-! ### Sweeps end -/

namespace DominatorTree

open PointerGuard.Digraph

section Sweeps

variable {preds : List Nat}

private theorem exists_meetAll (order : List Nat) (h : ∀ p ∈ preds, p < links.size) :
    ∃ found, meetAll order links preds = some found := by
  suffices hfold : ∀ found, ∃ found', preds.foldlM (fun found pred =>
      if pred < links.size then
        if (link links pred).isNone then some found
        else match found with
          | none => some (some pred)
          | some current => some (some (meet order links (2 * links.size) pred current))
      else none) found = some found' from hfold none
  induction preds with
  | nil => exact fun found => ⟨found, rfl⟩
  | cons p rest ih =>
    intro found
    have hp : p < links.size := h p (by simp)
    have hrest := ih fun q hq => h q (.tail _ hq)
    simp only [List.foldlM_cons, hp, if_true]
    split
    · exact hrest found
    · split
      · exact hrest (some p)
      · exact hrest (some _)

variable (C : g.Closed) (order : List Nat) (hsize : links.size = g.size)

include C hsize

private theorem exists_relink (node : Nat) :
    ∃ links', relink g order links node = some links' ∧ links'.size = g.size := by
  have hpreds : ∀ p ∈ g.pred node, p < links.size := fun p hp =>
    hsize ▸ (C.bounded ((C.converse p node).mp hp)).1
  obtain ⟨found, hfound⟩ := exists_meetAll order hpreds
  cases found with
  | none => exact ⟨links, by simp [relink, hfound], hsize⟩
  | some parent =>
    exact ⟨links.setIfInBounds node (some parent), by simp [relink, hfound], by simpa using hsize⟩

private theorem exists_sweep :
    ∃ links', sweep g order links = some links' ∧ links'.size = g.size := by
  suffices hfold : ∀ (nodes : List Nat) (links : Array (Option Nat)), links.size = g.size →
      ∃ links', nodes.foldlM (relink g order) links = some links' ∧ links'.size = g.size from
    hfold _ links hsize
  intro nodes
  induction nodes with
  | nil => exact fun links hsize => ⟨links, rfl, hsize⟩
  | cons node rest ih =>
    intro links hsize
    obtain ⟨next, hnext, hsize'⟩ := exists_relink C order hsize node
    obtain ⟨final, hfinal⟩ := ih next hsize'
    exact ⟨final, by simpa only [List.foldlM_cons, hnext]⟩

theorem exists_refine (fuel : Nat) :
    ∃ final, refine g order fuel links = some final := by
  induction fuel generalizing links with
  | zero => exact ⟨links, rfl⟩
  | succ fuel ih =>
    obtain ⟨next, hnext, hsize'⟩ := exists_sweep C order hsize
    simp only [refine, hnext, Option.bind_eq_bind, Option.bind_some]
    split
    · exact ⟨links, rfl⟩
    · exact ih hsize'

end Sweeps

/-! ### The tree and its chains -/

/-- A tree that answers every question as the walks from `entry` do, and whose links are those at
which the sweeps come to rest. -/
structure Depicts (g : Digraph) (entry : Nat) (t : DominatorTree) : Prop where
  settles : ∃ links,
    Settles g t.reached ((Array.replicate g.size none).setIfInBounds entry (some entry)) links ∧
      t.idom = links.setIfInBounds entry none
  isReachable_iff : ∀ n, t.isReachable n ↔ g.Reaches entry n
  dominates_iff : ∀ a b, t.dominates a b ↔
    a = b ∨ (g.Reaches entry a ∧ g.Reaches entry b ∧ g.Dominates entry a b)
  idom?_eq_none_iff : ∀ b, t.idom? b = none ↔ b = entry ∨ ¬ g.Reaches entry b
  idom?_eq_some_iff : ∀ b d, t.idom? b = some d ↔
    g.Reaches entry b ∧ g.ClosestDominator entry d b
  mem_chain_iff : ∀ b, g.Reaches entry b → ∀ a, a ∈ t.chain b ↔ g.Dominates entry a b
  nodup_chain : ∀ b, g.Reaches entry b → (t.chain b).Nodup
  climbs_chain : ∀ b, g.Reaches entry b → (t.chain b).head? = some b ∧
    (t.chain b).IsChain (fun node parent => t.idom? node = some parent) ∧
    (t.chain b).getLast? = some entry
  depth_add_one : ∀ b, g.Reaches entry b → t.depth b + 1 = (t.chain b).length

variable {entry : Nat} {t : DominatorTree}

theorem head?_chainFrom (t : DominatorTree) (fuel n : Nat) :
    (t.chainFrom fuel n).head? = some n := by
  cases fuel with
  | zero => rfl
  | succ fuel =>
    rw [chainFrom]
    split <;> rfl

theorem depth_add_one (t : DominatorTree) (b : Nat) : t.depth b + 1 = (t.chain b).length := by
  have hne : t.chain b ≠ [] := by
    intro hnil
    have hhead := t.head?_chainFrom t.size b
    rw [← chain, hnil] at hhead
    simp at hhead
  have hpos := List.length_pos_of_ne_nil hne
  rw [depth]
  omega

/-- Each node of a chain but the first is the link of the one before it. -/
theorem isChain_chainFrom (t : DominatorTree) (fuel n : Nat) :
    (t.chainFrom fuel n).IsChain (fun node parent => t.idom? node = some parent) := by
  induction fuel generalizing n with
  | zero => simp [chainFrom]
  | succ fuel ih =>
    rw [chainFrom]
    split
    · grind [List.isChain_cons, head?_chainFrom]
    · simp

section Tree

/-- Links lead to earlier nodes, so a chain repeats none. -/
theorem nodup_chainFrom (R : Refining g entry order order.length links)
    (hentry : entry < links.size) (hidom : t.idom = links.setIfInBounds entry none)
    (fuel n : Nat) : (t.chainFrom fuel n).Nodup := by
  have hdescends : (t.chainFrom fuel n).IsChain (fun a b => order.idxOf b < order.idxOf a) := by
    refine (t.isChain_chainFrom fuel n).imp fun a b hab => ?_
    rw [idom?_eq hentry hidom] at hab
    split at hab
    · simp at hab
    · exact (R.descends hab ‹_›).1
  refine hdescends.pairwise.imp fun hlt heq => ?_
  rw [heq] at hlt
  exact lt_irrefl _ hlt

/-- The link of a reached node other than the entry is its closest dominator. -/
theorem closestDominator_of_link (R : Refining g entry order order.length links)
    (N : g.Numbering entry order) (converse : ∀ a b, a ∈ g.pred b ↔ b ∈ g.succ a)
    (hmeets : ∀ u ∈ order, u ≠ entry → ∃ m, link links u = some m ∧ IsMeet links (g.pred u) m)
    (hb : b ∈ order) (hne : b ≠ entry) (hlink : link links b = some d) :
    g.ClosestDominator entry d b := by
  have hdown := R.descends hlink hne
  have hiff : ∀ {n}, n ∈ order → ∀ a, Climbs links n a ↔ g.Dominates entry a n :=
    fun hn a => R.climbs_iff_dominates N converse hmeets hn a
  refine ⟨(hiff hb d).mp (.up hlink (.refl d)), ?_, fun a ha hab => ?_⟩
  · rintro rfl
    exact lt_irrefl _ hdown.1
  · grind [Climbs.eq_or_of_link]

end Tree

section Computed

variable (C : g.Closed) (hentry : entry < g.size) (h : compute g entry = some t)

include C hentry h

theorem nodup_chain (b : Nat) : (t.chain b).Nodup := by
  obtain ⟨-, -, links, -, R, -, -, hidom⟩ := compute_cases hentry C.converse h
  exact nodup_chainFrom R (R.size.symm ▸ hentry) hidom _ b

theorem idom?_eq_none_iff (b : Nat) : t.idom? b = none ↔ b = entry ∨ ¬ g.Reaches entry b := by
  obtain ⟨-, N, links, -, R, -, -, hidom⟩ := compute_cases hentry C.converse h
  rw [idom?_eq (R.size.symm ▸ hentry) hidom, ← N.mem_iff]
  by_cases hne : b = entry
  · simp [hne]
  · simp only [hne, if_false]
    constructor
    · grind [Refining.linked, List.idxOf_lt_length_of_mem]
    · grind [Refining.mem_order, Option.isSome_iff_ne_none]

/-- Other nodes are linked to their closest dominator. -/
theorem idom?_eq_some_iff (b d : Nat) :
    t.idom? b = some d ↔ g.Reaches entry b ∧ g.ClosestDominator entry d b := by
  obtain ⟨-, N, links, -, R, hmeets, -, hidom⟩ := compute_cases hentry C.converse h
  have hlink := idom?_eq (R.size.symm ▸ hentry) hidom b
  have hclosest : ∀ {d}, t.idom? b = some d →
      g.Reaches entry b ∧ g.ClosestDominator entry d b := by
    intro d hd
    rw [hlink] at hd
    split at hd
    · simp at hd
    · have hb := R.listed hd
      exact ⟨(N.mem_iff b).mp hb, closestDominator_of_link R N C.converse hmeets hb ‹_› hd⟩
  refine ⟨hclosest, fun ⟨hb, hd⟩ => ?_⟩
  cases hidom? : t.idom? b with
  | some d' => rw [hd.eq (hclosest hidom?).2 hb]
  | none =>
    -- the entry has no strict dominator: the walk that stays there passes no other node
    obtain rfl : b = entry :=
      ((idom?_eq_none_iff C hentry h b).mp hidom?).resolve_right (absurd hb)
    exact absurd (by simpa using hd.dominates [b] .start) hd.ne

end Computed

theorem exists_compute (C : g.Closed) (hentry : entry < g.size) :
    ∃ t, compute g entry = some t := by
  obtain ⟨order, horder⟩ := C.inRange.exists_reversePostorder hentry
  have hsize : ((Array.replicate g.size none).setIfInBounds entry (some entry)).size = g.size := by
    simp
  obtain ⟨links, hlinks⟩ := exists_refine C order hsize (g.size * g.size + 1)
  rw [compute, if_neg (Nat.not_le.mpr hentry), horder]
  simp [hlinks]

/-- A tree is computed for every closed graph and every entry, and it depicts the graph. -/
theorem compute_depicts (C : g.Closed) (hentry : entry < g.size) :
    ∃ t, compute g entry = some t ∧ Depicts g entry t := by
  obtain ⟨t, h⟩ := exists_compute C hentry
  obtain ⟨-, -, links, ⟨hsettles, -⟩, -, -, -, hidom⟩ := compute_cases hentry C.converse h
  have hchain := fun b => ascends_chain hentry C.converse h (b := b)
  refine ⟨t, h, ⟨links, hsettles, hidom⟩, compute_isReachable hentry C.converse h,
    compute_dominates hentry C.converse h, idom?_eq_none_iff C hentry h,
    idom?_eq_some_iff C hentry h, fun b hb => (hchain b hb).2.1,
    fun b _ => nodup_chain C hentry h b, fun b hb => ?_, fun b _ => depth_add_one _ b⟩
  exact ⟨head?_chainFrom _ _ b, isChain_chainFrom _ _ b, (hchain b hb).2.2⟩

/-- Two nodes that lead to each other and are both entered from outside, a node with an edge to
itself, an edge back to the entry, and a node out of reach that leads into all this. -/
def tangled : Digraph :=
  ofEdges 5 [(0, 1), (0, 2), (1, 2), (2, 1), (2, 3), (3, 3), (3, 0), (4, 2), (4, 4)]

theorem compute_depicts_tangled :
    tangled.Closed ∧ 0 < tangled.size ∧ ∃ t, compute tangled 0 = some t ∧ Depicts tangled 0 t ∧
      t.chain 3 = [3, 2, 0] ∧ t.idom? 1 = some 0 ∧ t.dominates 4 2 = false := by
  have C : tangled.Closed := closed_ofEdges (by decide)
  obtain ⟨t, ht, D⟩ := compute_depicts C (by decide : 0 < tangled.size)
  have heval : (compute tangled 0).map (fun t => (t.chain 3, t.idom? 1, t.dominates 4 2)) =
      some ([3, 2, 0], some 0, false) := by decide +kernel
  simp only [ht, Option.map_some, Option.some.injEq, Prod.mk.injEq] at heval
  exact ⟨C, by decide, t, ht, D, heval⟩

/-! ### The course of refinement -/

/-- The links at some moment of the computation, when the nodes before position `next` have had
their turn in the sweep that is going on. -/
inductive Stage (g : Digraph) (entry : Nat) (order : List Nat) :
    Nat → Array (Option Nat) → Prop where
  /-- Only the entry is linked. -/
  | start : Stage g entry order 1 ((Array.replicate g.size none).setIfInBounds entry (some entry))
  /-- The next node is relinked. -/
  | turn {next node : Nat} {links links' : Array (Option Nat)} : Stage g entry order next links →
    order[next]? = some node → relink g order links node = some links' →
    Stage g entry order (next + 1) links'
  /-- All nodes have had their turn, and another sweep begins. -/
  | again {links : Array (Option Nat)} : Stage g entry order order.length links →
    Stage g entry order 1 links

namespace Stage

variable {todo : List Nat} {next fuel : Nat} {links' : Array (Option Nat)}

private theorem one_le (S : Stage g entry order next links) : 1 ≤ next := by
  cases S <;> omega

/-- What the sweeps rely on holds at every stage. -/
theorem refining (N : g.Numbering entry order) (converse : ∀ a b, a ∈ g.pred b ↔ b ∈ g.succ a)
    (S : Stage g entry order next links) : Refining g entry order next links := by
  induction S with
  | start => exact .initial N
  | @turn next node links links' S hnode hrelink ih =>
    obtain ⟨hlt, rfl⟩ := List.getElem?_eq_some_iff.mp hnode
    have horder : order = order.take next ++ order[next] :: order.drop (next + 1) := by simp
    have hdone : entry ∈ order.take next := by
      obtain ⟨rest, rfl⟩ := List.head?_eq_some_iff.mp N.head
      obtain ⟨k, rfl⟩ := Nat.exists_eq_add_of_le' S.one_le
      simp
    obtain ⟨hidx, hu, hne⟩ := Refining.turn N horder hdone
    rw [List.length_take_of_le hlt.le] at hidx
    rw [← hidx] at ih
    obtain ⟨m, -, M, rfl⟩ := ih.relink N converse hu hne hrelink
    have R := ih.set_meet N converse hu hne M
    rwa [hidx] at R
  | again S ih => exact ih.restart S.one_le

/-- A sweep goes through the stages up to its end. -/
theorem foldlM (done : List Nat) (horder : order = done ++ todo)
    (S : Stage g entry order done.length links)
    (h : todo.foldlM (relink g order) links = some links') :
    Stage g entry order order.length links' := by
  induction todo generalizing done links with
  | nil =>
    obtain rfl : links = links' := by simpa using h
    simpa [horder] using S
  | cons u rest ih =>
    obtain ⟨middle, hrelink, hrest⟩ := Option.bind_eq_some_iff.mp h
    have hu : order[done.length]? = some u := by simp [horder]
    exact ih (done ++ [u]) (by simp [horder]) (by simpa using S.turn hu hrelink) hrest

theorem refine {rest : List Nat} (horder : order = entry :: rest) (S : Stage g entry order 1 links)
    (h : refine g order fuel links = some links') : Stage g entry order 1 links' := by
  induction fuel generalizing links with
  | zero => exact Option.some.inj h ▸ S
  | succ fuel ih =>
    obtain ⟨swept, hsweep, hrest⟩ := Option.bind_eq_some_iff.mp h
    split at hrest
    · exact Option.some.inj hrest ▸ S
    · rw [sweep, horder, List.tail_cons, ← horder] at hsweep
      exact ih (.again (foldlM [entry] horder S hsweep)) hrest

end Stage

/-- The computation ends, and at every stage on the way links lead to earlier linked nodes, so that
climbing from a linked node ends at the entry and passes all its dominators. Two linked nodes
climb until they meet, and they meet at the deepest node that both chains have. -/
theorem stages_climb (C : g.Closed) (hentry : entry < g.size) :
    ∃ t links, compute g entry = some t ∧ g.reversePostorder entry = some t.reached ∧
      Stage g entry t.reached 1 links ∧ t.idom = links.setIfInBounds entry none ∧
      ∀ next links, Stage g entry t.reached next links →
        (∀ n m, link links n = some m → n ≠ entry →
          t.reached.idxOf m < t.reached.idxOf n ∧ (link links m).isSome) ∧
        (∀ n, (link links n).isSome →
          Climbs links n entry ∧ ∀ d, g.Dominates entry d n → Climbs links n d) ∧
        ∀ a b, (link links a).isSome → (link links b).isSome →
          Joins t.reached links a b (meet t.reached links (2 * links.size) a b) ∧
            IsMeet links [a, b] (meet t.reached links (2 * links.size) a b) := by
  obtain ⟨t, h⟩ := exists_compute C hentry
  simp only [compute, Nat.not_le.mpr hentry, if_false, Option.bind_eq_bind,
    Option.bind_eq_some_iff, Option.pure_def, Option.some.injEq] at h ⊢
  obtain ⟨order, horder, links, hlinks, rfl⟩ := h
  have N := Digraph.reversePostorder_numbering hentry horder
  obtain ⟨rest, hrest⟩ := List.head?_eq_some_iff.mp N.head
  refine ⟨_, links, ⟨order, horder, links, hlinks, rfl⟩, horder, .refine hrest .start hlinks, rfl,
    fun next links S => ?_⟩
  have R := S.refining N C.converse
  refine ⟨fun n m hlink hne => R.descends hlink hne, fun n hn =>
    ⟨R.dominators hn entry (.of_entry g entry n), R.dominators hn⟩, fun a b ha hb => ?_⟩
  have hpos : ∀ n, (link links n).isSome → order.idxOf n < links.size := fun n hn =>
    R.size ▸ (List.idxOf_lt_length_of_mem (R.mem_order hn)).trans_le N.length_le
  have hjoins : Joins order links a b (meet order links (2 * links.size) a b) :=
    R.joins_meet N.head ha hb (by have := hpos a ha; have := hpos b hb; omega)
  exact ⟨hjoins, R.isMeet_of_joins N.head hjoins ha hb⟩

/-- In the middle of the first sweep, when only some nodes are linked. -/
theorem stages_climb_tangled :
    tangled.Closed ∧ 0 < tangled.size ∧ ∃ t, compute tangled 0 = some t ∧
      Stage tangled 0 t.reached 3 #[some 0, some 0, some 0, none, none] ∧
      IsMeet #[some 0, some 0, some 0, none, none] [1, 2] 0 := by
  have C : tangled.Closed := Digraph.closed_ofEdges (by decide)
  obtain ⟨t, links, ht, horder, -, -, hstages⟩ := stages_climb C (by decide : 0 < tangled.size)
  have heval : tangled.reversePostorder 0 = some [0, 2, 1, 3] := by decide +kernel
  obtain hreached : t.reached = [0, 2, 1, 3] := Option.some.inj (horder.symm.trans heval)
  rw [hreached] at hstages
  have S : Stage tangled 0 [0, 2, 1, 3] 2 #[some 0, none, some 0, none, none] :=
    .turn .start rfl (by decide +kernel)
  have S : Stage tangled 0 [0, 2, 1, 3] 3 #[some 0, some 0, some 0, none, none] :=
    .turn S rfl (by decide +kernel)
  obtain ⟨-, -, hmeets⟩ := hstages 3 _ S
  exact ⟨C, by decide, t, ht, hreached ▸ S, (hmeets 1 2 (by decide) (by decide)).2⟩

end DominatorTree

end PointerGuard
