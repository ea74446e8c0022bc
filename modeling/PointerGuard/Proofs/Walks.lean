import Mathlib.Data.List.Basic
import PointerGuard.Digraph

/-!
# Walks and dominance

A walk follows edges from a start and lists the nodes it comes to. A node dominates another if every
walk from the entry to the second comes through the first.
-/

namespace PointerGuard.Digraph

/-- A walk from `start` along edges: the nodes it comes to, in order, and the last of them. -/
inductive Walk (g : Digraph) (start : Nat) : List Nat → Nat → Prop where
  /-- Staying at the start. -/
  | start : Walk g start [start] start
  /-- Going on along an edge. -/
  | step {nodes : List Nat} {node next : Nat} :
    Walk g start nodes node → next ∈ g.succ node → Walk g start (nodes ++ [next]) next

def InRange (g : Digraph) : Prop := ∀ a, ∀ b ∈ g.succ a, b < g.size

def Reaches (g : Digraph) (a b : Nat) : Prop := ∃ nodes, g.Walk a nodes b

/-- Every walk from `entry` to `b` comes through `a`. -/
def Dominates (g : Digraph) (entry a b : Nat) : Prop := ∀ nodes, g.Walk entry nodes b → a ∈ nodes

variable {g : Digraph} {a b c d entry : Nat} {nodes : List Nat}

/-! ### Walks -/

namespace Walk

section

variable (walk : g.Walk a nodes b)

include walk

theorem ne_nil : nodes ≠ [] := by
  cases walk <;> simp

theorem start_mem : a ∈ nodes := by
  induction walk with
  | start => simp
  | step _ _ ih => exact List.mem_append_left _ ih

theorem getLast?_eq : nodes.getLast? = some b := by
  cases walk <;> simp

theorem last_mem : b ∈ nodes :=
  List.mem_of_getLast? walk.getLast?_eq

theorem reaches : g.Reaches a b := ⟨nodes, walk⟩

theorem reaches_of_mem (hc : c ∈ nodes) : g.Reaches a c := by
  induction walk with
  | start =>
    obtain rfl := List.mem_singleton.mp hc
    exact ⟨_, .start⟩
  | step walk edge ih =>
    rcases List.mem_append.mp hc with hc | hc
    · exact ih hc
    · obtain rfl := List.mem_singleton.mp hc
      exact ⟨_, walk.step edge⟩

end

theorem append {left right : List Nat} (hleft : g.Walk a left b) (hright : g.Walk b right c) :
    g.Walk a (left ++ right.tail) c := by
  induction hright with
  | start => simpa using hleft
  | step walk edge ih =>
    rw [List.tail_append_of_ne_nil walk.ne_nil, ← List.append_assoc]
    exact ih.step edge

section

variable (walk : g.Walk a nodes b) (hc : c ∈ nodes)

include walk hc

theorem split_last :
    ∃ before after, nodes = before ++ c :: after ∧ c ∉ after ∧
      g.Walk a (before ++ [c]) c ∧ g.Walk c (c :: after) b := by
  induction walk with
  | start =>
    obtain rfl := List.mem_singleton.mp hc
    exact ⟨[], [], rfl, by simp, .start, .start⟩
  | @step nodes node next walk edge ih =>
    by_cases hnext : c = next
    · subst hnext
      exact ⟨nodes, [], rfl, by simp, walk.step edge, .start⟩
    · have hmem : c ∈ nodes := by simpa [hnext] using hc
      obtain ⟨before, after, rfl, hafter, hleft, hright⟩ := ih hmem
      refine ⟨before, after ++ [next], by simp, ?_, hleft, hright.step edge⟩
      simpa [hafter] using hnext

theorem split_first :
    ∃ before after, nodes = before ++ c :: after ∧ c ∉ before ∧ g.Walk a (before ++ [c]) c := by
  induction walk with
  | start =>
    obtain rfl := List.mem_singleton.mp hc
    exact ⟨[], [], rfl, by simp, .start⟩
  | @step nodes node next walk edge ih =>
    by_cases hmem : c ∈ nodes
    · grind
    · obtain rfl : c = next := by simpa [hmem] using hc
      exact ⟨nodes, [], rfl, hmem, walk.step edge⟩

theorem split :
    ∃ before after, nodes = before ++ c :: after ∧
      g.Walk a (before ++ [c]) c ∧ g.Walk c (c :: after) b := by
  obtain ⟨before, after, heq, -, hleft, hright⟩ := walk.split_last hc
  exact ⟨before, after, heq, hleft, hright⟩

end

theorem cons_cases (walk : g.Walk a (a :: nodes) b) (hne : a ≠ b) :
    ∃ nodes' c, nodes = nodes' ++ [b] ∧ g.Walk a (a :: nodes') c ∧ b ∈ g.succ c := by
  generalize hall : a :: nodes = all at walk
  cases walk with
  | start => exact absurd rfl hne
  | @step front c _ walk edge =>
    cases front with
    | nil => exact absurd rfl walk.ne_nil
    | cons first rest => grind

end Walk

/-! ### Reachability -/

theorem Reaches.refl (g : Digraph) (a : Nat) : g.Reaches a a := ⟨_, .start⟩

theorem Reaches.step (h : g.Reaches a b) (edge : c ∈ g.succ b) : g.Reaches a c := by
  obtain ⟨nodes, walk⟩ := h
  exact ⟨_, walk.step edge⟩

theorem Reaches.trans (hab : g.Reaches a b) (hbc : g.Reaches b c) : g.Reaches a c := by
  obtain ⟨left, hleft⟩ := hab
  obtain ⟨right, hright⟩ := hbc
  exact ⟨_, hleft.append hright⟩

/-! ### Dominance -/

namespace Dominates

theorem of_entry (g : Digraph) (entry a : Nat) : g.Dominates entry entry a :=
  fun _ walk => walk.start_mem

theorem trans (hab : g.Dominates entry a b) (hbc : g.Dominates entry b c) :
    g.Dominates entry a c := by
  intro nodes walk
  obtain ⟨before, after, rfl, hleft, -⟩ := walk.split (hbc nodes walk)
  have ha := hab _ hleft
  rcases List.mem_append.mp ha with ha | ha
  · exact List.mem_append_left _ ha
  · obtain rfl := List.mem_singleton.mp ha
    simp

theorem reaches (hab : g.Dominates entry a b) (hb : g.Reaches entry b) : g.Reaches entry a := by
  obtain ⟨nodes, walk⟩ := hb
  exact walk.reaches_of_mem (hab nodes walk)

/-- What dominates a node without being it dominates the predecessors of the node. -/
theorem pred (hdb : g.Dominates entry d b) (hne : d ≠ b) (edge : b ∈ g.succ a) :
    g.Dominates entry d a := by
  intro nodes walk
  have hd := hdb _ (walk.step edge)
  simpa [hne] using hd

/-- Two reachable nodes do not dominate each other. A walk to the one has a shorter walk to the
other inside it, and so on for ever. -/
theorem antisymm (hab : g.Dominates entry a b) (hba : g.Dominates entry b a)
    (hb : g.Reaches entry b) : a = b := by
  obtain ⟨nodes, walk⟩ := hb
  by_contra hne
  induction hlen : nodes.length using Nat.strongRecOn generalizing a b nodes with
  | _ n ih =>
    obtain ⟨before, after, rfl, hleft, hright⟩ := walk.split (hab nodes walk)
    have hshort : (before ++ [a]).length < n := by
      rcases List.eq_nil_or_concat after with rfl | ⟨front, last, rfl⟩
      · have hlast := walk.getLast?_eq
        simp only [List.getLast?_append, List.getLast?_singleton, Option.some_or,
          Option.some.injEq] at hlast
        exact absurd hlast hne
      · grind
    exact ih _ hshort hba hab _ hleft (Ne.symm hne) rfl

/-- What strictly dominates a node is not dominated by it, so some walk leads there past it. -/
theorem exists_walk_avoiding (hab : g.Dominates entry a b) (hne : a ≠ b)
    (hb : g.Reaches entry b) : ∃ nodes, g.Walk entry nodes a ∧ b ∉ nodes := by
  by_contra hnone
  refine hne (hab.antisymm ?_ hb)
  intro nodes walk
  by_contra hmem
  exact hnone ⟨nodes, walk, hmem⟩

/-- After the last visit to a dominator of its end, a walk comes to nodes only that the dominator
dominates. -/
theorem of_walk (hdom : g.Dominates entry a b) (walk : g.Walk a (a :: nodes) b) (ha : a ∉ nodes)
    (hc : c ∈ nodes) : g.Dominates entry a c := by
  intro way hway
  obtain ⟨before, after, hsplit, -, hrest⟩ := walk.split (.tail _ hc)
  -- going on to the end brings no further visit to the dominator
  have hafter : a ∉ after := by
    intro hmem
    rcases before with _ | ⟨first, before⟩
    · cases hsplit
      exact ha hc
    · cases hsplit
      exact ha (by simp [hmem])
  have hmem := hdom _ (hway.append hrest)
  simpa [hafter] using hmem

end Dominates

end PointerGuard.Digraph
