import Mathlib.Algebra.GroupWithZero.Nat
import Mathlib.Algebra.Order.BigOperators.Group.List
import Mathlib.Algebra.Order.Group.Nat
import PointerGuard.Digraph.Dominators
import PointerGuard.Proofs.Searches

/-!
# Correctness of dominator trees

While links are refined, every link leads to an earlier node, all dominators of a linked node lie on
its chain of links, and a link lies on the chain of an earlier predecessor unless that was relinked
in the same sweep. So every change moves a link up its chain, the sweeps end, and then the chain of
a node lists its dominators.
-/

namespace PointerGuard.DominatorTree

open PointerGuard.Digraph

variable {fuel p n a b c x entry : Nat} {links : Array (Option Nat)} {g : Digraph}
  {nodes order : List Nat}

/-- Following links from `a` leads to `c`. -/
inductive Climbs (links : Array (Option Nat)) : Nat → Nat → Prop where
  /-- Every node is on its own chain. -/
  | refl (a : Nat) : Climbs links a a
  /-- The chain goes on with the link. -/
  | up {a b c : Nat} : link links a = some b → Climbs links b c → Climbs links a c

/-- Two nodes climb until they meet at `m`; the later one has a link and takes it. A link is read
where `links[n]?` has an answer, so `n` is a node. -/
inductive Joins (order : List Nat) (links : Array (Option Nat)) : Nat → Nat → Nat → Prop where
  | met (a : Nat) : Joins order links a a a
  | left {a b up m : Nat} : b < links.size → order.idxOf b < order.idxOf a →
    links[a]? = some (some up) → Joins order links up b m → Joins order links a b m
  | right {a b up m : Nat} : a < links.size → order.idxOf a < order.idxOf b →
    links[b]? = some (some up) → Joins order links a up m → Joins order links a b m

/-- The linked ones among some predecessors are met one after another with what was found before. -/
inductive Combines (order : List Nat) (links : Array (Option Nat)) :
    Option Nat → List Nat → Option Nat → Prop where
  | done (found : Option Nat) : Combines order links found [] found
  | unlinked {found found' : Option Nat} {p : Nat} {rest : List Nat} : links[p]? = some none →
    Combines order links found rest found' → Combines order links found (p :: rest) found'
  | first {found' : Option Nat} {p up : Nat} {rest : List Nat} : links[p]? = some (some up) →
    Combines order links (some p) rest found' → Combines order links none (p :: rest) found'
  | meet {found' : Option Nat} {p up current m : Nat} {rest : List Nat} :
    links[p]? = some (some up) → Joins order links p current m →
    Combines order links (some m) rest found' →
    Combines order links (some current) (p :: rest) found'

/-- Nodes are linked, one after another, to what their predecessors have in common. -/
inductive Sweeps (g : Digraph) (order : List Nat) :
    List Nat → Array (Option Nat) → Array (Option Nat) → Prop where
  | done (links : Array (Option Nat)) : Sweeps g order [] links links
  | relink {links final : Array (Option Nat)} {node parent : Nat} {rest : List Nat}
      (hnode : node < links.size) : Combines order links none (g.pred node) (some parent) →
    Sweeps g order rest (links.set node (some parent) hnode) final →
    Sweeps g order (node :: rest) links final

/-- Sweeping is repeated until a sweep changes nothing. -/
inductive Settles (g : Digraph) (order : List Nat) :
    Array (Option Nat) → Array (Option Nat) → Prop where
  /-- Nothing is left to change. -/
  | rest {links : Array (Option Nat)} : sweep g order links = some links →
    Settles g order links links
  /-- A sweep has changed something. -/
  | sweep {links next final : Array (Option Nat)} : sweep g order links = some next →
    next ≠ links → Settles g order next final → Settles g order links final

/-- Sweeps follow each other until one of them changes nothing. -/
inductive Rests (g : Digraph) (order : List Nat) :
    Array (Option Nat) → Array (Option Nat) → Prop where
  /-- A sweep has changed nothing. -/
  | stay {links : Array (Option Nat)} : Sweeps g order order.tail links links →
    Rests g order links links
  /-- A sweep has changed something. -/
  | again {links next final : Array (Option Nat)} : Sweeps g order order.tail links next →
    next ≠ links → Rests g order next final → Rests g order links final

/-- Following the links of a tree from a node gives a list that ends at a node without a link. -/
inductive Ascends (t : DominatorTree) : Nat → List Nat → Prop where
  | root {n : Nat} : t.idom[n]? = some none → Ascends t n [n]
  | up {n parent : Nat} {rest : List Nat} : t.idom[n]? = some (some parent) →
    Ascends t parent rest → Ascends t n (n :: rest)

/-- The chains of all linked nodes of a list run through `m` and join there. -/
structure IsMeet (links : Array (Option Nat)) (nodes : List Nat) (m : Nat) : Prop where
  linked : (link links m).isSome
  common : ∀ p ∈ nodes, (link links p).isSome → Climbs links p m
  greatest : ∀ x, (∀ p ∈ nodes, (link links p).isSome → Climbs links p x) → Climbs links m x

/-- What holds of the links when all nodes before position `next` have been relinked in this sweep.
The last disjunct of `carried` is for nodes that wait for their turn after the chain of the
predecessor that carried their link has been moved. -/
structure Refining (g : Digraph) (entry : Nat) (order : List Nat) (next : Nat)
    (links : Array (Option Nat)) : Prop where
  size : links.size = g.size
  root : link links entry = some entry
  listed : ∀ {n m}, link links n = some m → n ∈ order
  descends : ∀ {n m}, link links n = some m → n ≠ entry →
    order.idxOf m < order.idxOf n ∧ (link links m).isSome
  linked : ∀ n ∈ order, order.idxOf n < next → (link links n).isSome
  upper : ∀ {n m}, link links n = some m → n ≠ entry →
    ∀ x, (∀ p ∈ g.pred n, (link links p).isSome → Climbs links p x) → Climbs links m x
  carried : ∀ {n m}, link links n = some m → n ≠ entry →
    (∃ q ∈ g.pred n, (link links q).isSome ∧ order.idxOf q < order.idxOf n ∧ Climbs links q m) ∨
      (next ≤ order.idxOf n ∧ order.idxOf m < next)
  dominators : ∀ {n}, (link links n).isSome → ∀ d, g.Dominates entry d n → Climbs links n d

/-! ### Chains -/

theorem link_eq_some_iff {m : Nat} : link links n = some m ↔ links[n]? = some (some m) := by
  simp [link, Option.join_eq_some_iff]

theorem link_eq_none_iff (hn : n < links.size) : link links n = none ↔ links[n]? = some none := by
  simp [link, Array.getElem?_eq_getElem hn]

namespace Climbs

theorem trans (hab : Climbs links a b) (hbc : Climbs links b c) : Climbs links a c := by
  induction hab with
  | refl => exact hbc
  | up hlink _ ih => exact .up hlink (ih hbc)

theorem eq_or_of_link (h : Climbs links a c) (hlink : link links a = some b) :
    c = a ∨ Climbs links b c := by
  cases h with
  | refl => exact .inl rfl
  | up hlink' h =>
    cases hlink.symm.trans hlink'
    exact .inr h

/-- Of two nodes on one chain, one is on the chain of the other. -/
theorem total (hb : Climbs links a b) (hc : Climbs links a c) :
    Climbs links b c ∨ Climbs links c b := by
  induction hb with
  | refl => exact .inl hc
  | up hlink hrest ih =>
    rcases hc.eq_or_of_link hlink with rfl | hc
    · exact .inr (.up hlink hrest)
    · exact ih hc

end Climbs

namespace Refining

variable {node up : Nat} {preds todo seen : List Nat} {next : Nat} {links' : Array (Option Nat)}
  {m u : Nat} {found found' : Option Nat}

section

variable (R : Refining g entry order next links)

include R

theorem climbs_entry (h : Climbs links entry c) : c = entry := by
  suffices key : ∀ a, Climbs links a c → a = entry → c = entry from key entry h rfl
  clear h
  intro a h
  induction h with
  | refl => exact id
  | up hlink _ ih =>
    rintro rfl
    exact ih (Option.some.inj (R.root.symm.trans hlink)).symm

theorem idxOf_le (h : Climbs links a c) : order.idxOf c ≤ order.idxOf a := by
  induction h with
  | refl => exact Nat.le_refl _
  | @up a b c hlink _ ih =>
    by_cases hentry : a = entry
    · subst hentry
      rwa [← Option.some.inj (R.root.symm.trans hlink)] at ih
    · exact ih.trans (R.descends hlink hentry).1.le

theorem idxOf_lt (h : Climbs links a c) (hne : c ≠ a) : order.idxOf c < order.idxOf a := by
  cases h with
  | refl => exact absurd rfl hne
  | up hlink h =>
    by_cases hentry : a = entry
    · grind [root, climbs_entry]
    · exact (R.idxOf_le h).trans_lt (R.descends hlink hentry).1

theorem climbs_antisymm (hac : Climbs links a c) (hca : Climbs links c a) : a = c := by
  by_contra hne
  have := R.idxOf_lt hac (Ne.symm hne)
  have := R.idxOf_le hca
  omega

theorem linked_of_climbs (h : Climbs links a c) (ha : (link links a).isSome) :
    (link links c).isSome := by
  induction h with
  | refl => exact ha
  | @up a b c hlink _ ih =>
    by_cases hentry : a = entry
    · subst hentry
      cases R.root.symm.trans hlink
      exact ih ha
    · exact ih (R.descends hlink hentry).2

theorem mem_order (ha : (link links a).isSome) : a ∈ order := by
  obtain ⟨m, hm⟩ := Option.isSome_iff_exists.mp ha
  exact R.listed hm

end

/-! ### Meets -/

theorem isMeet_pair {y : Nat} (hx : (link links x).isSome) (hy : (link links y).isSome) :
    IsMeet links [x, y] m ↔ (link links m).isSome ∧ (Climbs links x m ∧ Climbs links y m) ∧
      ∀ z, Climbs links x z → Climbs links y z → Climbs links m z := by
  constructor
  · grind [IsMeet.linked, IsMeet.common, IsMeet.greatest]
  · rintro ⟨hm, ⟨hxm, hym⟩, hgreatest⟩
    exact ⟨hm, by simp [hxm, hym], fun z h => hgreatest z (h x (by simp) hx) (h y (by simp) hy)⟩

theorem isMeet_comm (ha : (link links a).isSome) (hb : (link links b).isSome) :
    IsMeet links [a, b] m ↔ IsMeet links [b, a] m := by
  rw [isMeet_pair ha hb, isMeet_pair hb ha]
  tauto

/-- Of two nodes, one that is not on the chain of the other can be replaced by its link. -/
theorem isMeet_of_link (ha : link links a = some up) (hup : (link links up).isSome)
    (hb : (link links b).isSome) (hba : ¬ Climbs links b a) (h : IsMeet links [up, b] m) :
    IsMeet links [a, b] m := by
  obtain ⟨hm, ⟨hupm, hbm⟩, hgreatest⟩ := (isMeet_pair hup hb).mp h
  refine (isMeet_pair (Option.isSome_iff_exists.mpr ⟨up, ha⟩) hb).mpr
    ⟨hm, ⟨.up ha hupm, hbm⟩, fun z haz hbz => hgreatest z ?_ hbz⟩
  rcases haz.eq_or_of_link ha with rfl | hupz
  · exact absurd hbz hba
  · exact hupz

/-- What has been gathered of a list of nodes: nothing if none is linked, and their meet else. -/
def Gathered (links : Array (Option Nat)) (nodes : List Nat) : Option Nat → Prop
  | none => ∀ p ∈ nodes, link links p = none
  | some m => IsMeet links nodes m

theorem Gathered.skip (h : Gathered links nodes found) (hp : link links p = none) :
    Gathered links (nodes ++ [p]) found := by
  cases found with
  | none =>
    intro q hq
    rcases List.mem_append.mp hq with hq | hq
    · exact h q hq
    · rwa [List.mem_singleton.mp hq]
  | some m =>
    refine ⟨h.linked, fun q hq hlinked => ?_, fun x hx => h.greatest x fun q hq => ?_⟩
    · rcases List.mem_append.mp hq with hq | hq
      · exact h.common q hq hlinked
      · simp [List.mem_singleton.mp hq, hp] at hlinked
    · exact hx q (List.mem_append_left _ hq)

theorem Gathered.first (h : Gathered links nodes none) (hp : (link links p).isSome) :
    Gathered links (nodes ++ [p]) (some p) := by
  refine ⟨hp, fun q hq hlinked => ?_, fun x hx => hx p (by simp) hp⟩
  rcases List.mem_append.mp hq with hq | hq
  · simp [h q hq] at hlinked
  · rw [List.mem_singleton.mp hq]
    exact .refl p

/-- A further linked node is met with what was found so far. -/
theorem Gathered.meet {current : Nat} (h : Gathered links nodes (some current))
    (hp : (link links p).isSome) (hmeet : IsMeet links [p, current] m) :
    Gathered links (nodes ++ [p]) (some m) := by
  refine ⟨hmeet.linked, fun q hq hlinked => ?_, fun x hx => hmeet.greatest x fun q hq _ => ?_⟩
  · rcases List.mem_append.mp hq with hq | hq
    · exact (h.common q hq hlinked).trans (hmeet.common current (by simp) h.linked)
    · rw [List.mem_singleton.mp hq]
      exact hmeet.common p (by simp) hp
  · rcases List.mem_cons.mp hq with rfl | hq
    · exact hx q (by simp) hp
    · rw [List.mem_singleton.mp hq]
      exact h.greatest x fun q hq => hx q (List.mem_append_left _ hq)

section

variable (R : Refining g entry order next links) (head : order.head? = some entry)

include R head

/-- A node that comes after another one is not the entry, so its link leads to an earlier node. -/
theorem descends_of_lt (hup : link links a = some up) (hlt : order.idxOf b < order.idxOf a) :
    order.idxOf up < order.idxOf a ∧ (link links up).isSome := by
  apply R.descends hup
  rintro rfl
  obtain ⟨rest, rfl⟩ := List.head?_eq_some_iff.mp head
  simp at hlt

/-- Climbing ends: with every step the position of one of the two nodes falls. -/
theorem joins_meet (ha : (link links a).isSome) (hb : (link links b).isSome)
    (hfuel : order.idxOf a + order.idxOf b < fuel) :
    Joins order links a b (meet order links fuel a b) := by
  have hsize : ∀ {n}, (link links n).isSome → n < links.size := by
    grind [Option.isSome_iff_exists, Array.getElem?_eq_some_iff, link_eq_some_iff]
  induction fuel generalizing a b with
  | zero => omega
  | succ fuel ih =>
    rw [meet]
    by_cases hab : a = b
    · rw [if_pos hab, hab]
      exact .met b
    rw [if_neg hab]
    by_cases hlt : order.idxOf b < order.idxOf a
    · rw [if_pos hlt]
      obtain ⟨up, hup⟩ := Option.isSome_iff_exists.mp ha
      obtain ⟨hdown, hlinked⟩ := R.descends_of_lt head hup hlt
      simp only [hup]
      exact .left (hsize hb) hlt (link_eq_some_iff.mp hup) (ih hlinked hb (by omega))
    · rw [if_neg hlt]
      obtain ⟨up, hup⟩ := Option.isSome_iff_exists.mp hb
      -- two linked nodes that differ have different positions
      have hne : order.idxOf a ≠ order.idxOf b :=
        fun e => hab ((List.idxOf_inj (R.mem_order ha)).mp e)
      have hlt' : order.idxOf a < order.idxOf b := by omega
      obtain ⟨hdown, hlinked⟩ := R.descends_of_lt head hup hlt'
      simp only [hup]
      exact .right (hsize ha) hlt' (link_eq_some_iff.mp hup) (ih ha hlinked (by omega))

/-- Two chains join where nodes meet that climb them. -/
theorem isMeet_of_joins (h : Joins order links a b m) (ha : (link links a).isSome)
    (hb : (link links b).isSome) : IsMeet links [a, b] m := by
  induction h with
  | met a => exact ⟨ha, by simp [Climbs.refl], fun x hx => hx a (by simp) ha⟩
  | left _ hlt hup _ ih =>
    -- the later of two nodes is not on the chain of the other
    have hup := link_eq_some_iff.mpr hup
    have hlinked := (R.descends_of_lt head hup hlt).2
    exact isMeet_of_link hup hlinked hb (fun h => (R.idxOf_le h).not_gt hlt) (ih hlinked hb)
  | right _ hlt hup _ ih =>
    have hup := link_eq_some_iff.mpr hup
    have hlinked := (R.descends_of_lt head hup hlt).2
    rw [isMeet_comm ha hb]
    refine isMeet_of_link hup hlinked ha (fun h => (R.idxOf_le h).not_gt hlt) ?_
    rw [isMeet_comm hlinked ha]
    exact ih ha hlinked

/-- The predecessors of a node are combined. What has been found is linked, which is the invariant
of the fold. -/
theorem combines_meetAll (bounded : order.length ≤ links.size)
    (h : meetAll order links preds = some found) : Combines order links none preds found := by
  have hpos : ∀ n, (link links n).isSome → order.idxOf n < links.size := fun n hn =>
    (List.idxOf_lt_length_of_mem (R.mem_order hn)).trans_le bounded
  rw [meetAll] at h
  have hstart : ∀ c, (none : Option Nat) = some c → (link links c).isSome := by
    rintro c ⟨⟩
  generalize (none : Option Nat) = start at h hstart
  induction preds generalizing start with
  | nil =>
    simp only [List.foldlM_nil, Option.pure_def, Option.some.injEq] at h
    exact h ▸ .done start
  | cons p rest ih =>
    simp only [List.foldlM_cons, Option.bind_eq_bind, Option.bind_eq_some_iff] at h
    obtain ⟨start', hstep, hrest⟩ := h
    split at hstep
    · rename_i hp
      cases hlink : link links p with
      | none =>
        simp only [hlink, Option.isNone_none, if_true, Option.some.injEq] at hstep
        subst hstep
        exact .unlinked ((link_eq_none_iff hp).mp hlink) (ih start hrest hstart)
      | some up =>
        have hlinked : (link links p).isSome := Option.isSome_iff_exists.mpr ⟨up, hlink⟩
        simp only [hlink] at hstep
        rw [link_eq_some_iff] at hlink
        cases start with
        | none =>
          cases hstep
          exact .first hlink (ih (some p) hrest fun c hc => Option.some.inj hc ▸ hlinked)
        | some current =>
          cases hstep
          have hcurrent := hstart current rfl
          -- twice the size bounds the sum of two positions
          have hfuel : order.idxOf p + order.idxOf current < 2 * links.size := by grind
          have hjoins := R.joins_meet head hlinked hcurrent hfuel
          have hmeet := (R.isMeet_of_joins head hjoins hlinked hcurrent).linked
          exact .meet hlink hjoins (ih (some _) hrest fun c hc => Option.some.inj hc ▸ hmeet)
    · cases hstep

theorem gathered_of_combines (h : Combines order links found preds found')
    (hseen : Gathered links seen found) : Gathered links (seen ++ preds) found' := by
  have linked : ∀ {p up}, links[p]? = some (some up) → (link links p).isSome := fun hp =>
    Option.isSome_iff_exists.mpr ⟨_, link_eq_some_iff.mpr hp⟩
  induction h generalizing seen with
  | done => rwa [List.append_nil]
  | unlinked hp _ ih =>
    rw [List.append_cons]
    exact ih (hseen.skip (by rw [link, hp]; rfl))
  | first hp _ ih =>
    rw [List.append_cons]
    exact ih (hseen.first (linked hp))
  | meet hp hjoins _ ih =>
    rw [List.append_cons]
    exact ih (hseen.meet (linked hp) (R.isMeet_of_joins head hjoins (linked hp) hseen.linked))

end

/-! ### Changing one link -/

theorem link_set (hnode : node < links.size) (value : Option Nat) (n : Nat) :
    link (links.setIfInBounds node value) n = if n = node then value else link links n := by
  simp only [link]
  by_cases h : n = node
  · subst h
    simp [hnode]
  · simp [h, Ne.symm h]

section Relinked

variable {parent : Nat} (hlinks : ∀ n, n ≠ u → link links' n = link links n)
  (hu : link links' u = some parent) (hparent : ¬ Climbs links parent u)

include hlinks

private theorem climbs_of_relinked_climbs (ha : ¬ Climbs links a u) (h : Climbs links' a x) :
    Climbs links a x := by
  induction h with
  | refl => exact .refl _
  | @up a b c hlink _ ih =>
    have hau : a ≠ u := by
      rintro rfl
      exact ha (.refl _)
    rw [hlinks a hau] at hlink
    exact .up hlink (ih fun hb => ha (.up hlink hb))

/-- Chains that do not run through the changed node stay as they are. -/
theorem climbs_of_not_climbs (ha : ¬ Climbs links a u) : Climbs links' a x ↔ Climbs links a x :=
  ⟨climbs_of_relinked_climbs hlinks ha, climbs_of_relinked_climbs
    (fun n hn => (hlinks n hn).symm) fun h => ha (climbs_of_relinked_climbs hlinks ha h)⟩

include hu hparent

theorem climbs_changed : Climbs links' u x ↔ x = u ∨ Climbs links parent x := by
  rw [← climbs_of_not_climbs hlinks hparent]
  constructor
  · exact fun h => h.eq_or_of_link hu
  · rintro (rfl | h)
    · exact .refl _
    · exact .up hu h

/-- Chains that run through the changed node keep what comes before it and go on with the new
link. -/
theorem climbs_of_climbs (R : Refining g entry order next links) (ha : Climbs links a u) :
    Climbs links' a x ↔ (Climbs links a x ∧ Climbs links x u) ∨ Climbs links parent x := by
  have hself : Climbs links' u x ↔ (Climbs links u x ∧ Climbs links x u) ∨
      Climbs links parent x := by
    rw [climbs_changed hlinks hu hparent]
    refine or_congr_left ⟨?_, fun ⟨hux, hxu⟩ => (R.climbs_antisymm hux hxu).symm⟩
    rintro rfl
    exact ⟨.refl _, .refl _⟩
  induction ha with
  | refl a => exact hself
  | @up a b c hlink hbu ih =>
    specialize ih hlinks hu hparent hself
    by_cases hau : a = c
    · rwa [hau]
    · -- `a` is not the changed node, so its own link is what it was
      have hlink' : link links' a = some b := (hlinks a hau).trans hlink
      constructor
      · intro h
        rcases h.eq_or_of_link hlink' with rfl | h
        · exact .inl ⟨.refl _, .up hlink hbu⟩
        · exact (ih.mp h).imp_left fun ⟨hb, hx⟩ => ⟨.up hlink hb, hx⟩
      · rintro (⟨hax, hxu⟩ | h)
        · rcases hax.eq_or_of_link hlink with rfl | hb
          · exact .refl _
          · exact .up hlink' (ih.mpr (.inl ⟨hb, hxu⟩))
        · exact .up hlink' (ih.mpr (.inr h))

end Relinked

/-! ### The potential

Every link that changes moves up its chain, so the sum of the positions of all links falls. -/

/-- The sum of the positions of all links; a missing link counts as one behind the last. -/
def potential (order : List Nat) (links : Array (Option Nat)) : Nat :=
  (order.map fun n => ((link links n).map order.idxOf).getD order.length).sum

theorem potential_le (order : List Nat) (links : Array (Option Nat)) :
    potential order links ≤ order.length * order.length := by
  refine (List.sum_le_card_nsmul _ order.length fun k hk => ?_).trans (by simp)
  obtain ⟨n, -, rfl⟩ := List.mem_map.mp hk
  cases link links n with
  | none => exact Nat.le_refl _
  | some m => exact List.idxOf_le_length

theorem set_link_eq (h : link links node = some m) : links.setIfInBounds node (some m) = links := by
  apply Array.ext_getElem?
  intro i
  rw [Array.getElem?_setIfInBounds]
  split
  · split
    · rw [link] at h
      cases hget : links[node]? with
      | none => simp [hget] at h
      | some value => simp_all
    · grind
  · rfl

/-! ### Relinking a node

`u` is the node whose turn it is, and `m` is the meet of its linked predecessors. -/

section Turn

variable {d v : Nat} (R : Refining g entry order (order.idxOf u) links)
  (N : g.Numbering entry order) (converse : ∀ a b, a ∈ g.pred b ↔ b ∈ g.succ a) (hu : u ∈ order)
  (hne : u ≠ entry) (M : IsMeet links (g.pred u) m)

include R hne M in
/-- If the node was linked before, its new link is on its old chain. -/
theorem climbs_meet (hlinked : (link links u).isSome) : Climbs links u m := by
  obtain ⟨old, hold⟩ := Option.isSome_iff_exists.mp hlinked
  exact .up hold (R.upper hold hne m M.common)

include R hne M in
/-- Relinking makes chains of linked nodes no longer. -/
theorem climbs_of_relinked (hlinks : ∀ n, n ≠ u → link links' n = link links n)
    (hu' : link links' u = some m)
    (hm : ¬ Climbs links m u) (ha : (link links a).isSome) (h : Climbs links' a x) :
    Climbs links a x := by
  by_cases hau : Climbs links a u
  · rcases (R.climbs_of_climbs hlinks hu' hm hau).mp h with ⟨hax, -⟩ | hmx
    · exact hax
    · exact hau.trans ((R.climbs_meet hne M (R.linked_of_climbs hau ha)).trans hmx)
  · exact (climbs_of_not_climbs hlinks hau).mp h

include R converse in
/-- A dominator of a node on whose chain `u` lies dominates `u`, if it comes before `u`. Going from
the node to the predecessor that carries its link leads down to `u`. -/
theorem dominates_turn (hv : (link links v).isSome) (hvu : Climbs links v u)
    (hd : g.Dominates entry d v) (hlt : order.idxOf d < order.idxOf u) : g.Dominates entry d u := by
  -- by induction on the rank of `v`: the predecessor that carries its link comes earlier
  induction hrank : order.idxOf v using Nat.strongRecOn generalizing v with
  | _ rank ih =>
    by_cases huv : u = v
    · rwa [huv]
    obtain ⟨up, hup⟩ := Option.isSome_iff_exists.mp hv
    have hupu : Climbs links up u := (hvu.eq_or_of_link hup).resolve_left huv
    have hentry : v ≠ entry := by
      rintro rfl
      exact huv (R.climbs_entry hvu)
    rcases R.carried hup hentry with ⟨q, hq, hqlinked, hqv, hqup⟩ | ⟨-, hearly⟩
    · have hdv : d ≠ v := by
        rintro rfl
        have := R.idxOf_le hvu
        omega
      exact ih _ (hrank ▸ hqv) hqlinked (hqup.trans hupu)
        (hd.pred hdv ((converse q v).mp hq)) rfl
    · -- a link that leads past `u` does not come to `u`
      have := R.idxOf_le hupu
      omega

include R N converse hu hne

theorem exists_earlier : ∃ q ∈ g.pred u, (link links q).isSome ∧ order.idxOf q < order.idxOf u := by
  obtain ⟨q, hq, edge, hlt⟩ := N.earlier u hu hne
  exact ⟨q, (converse q u).mpr edge, R.linked q hq hlt, hlt⟩

/-- Relinking sets the link to the meet of the linked predecessors; some of them is linked. -/
theorem relink (h : DominatorTree.relink g order links u = some links') :
    ∃ m, Combines order links none (g.pred u) (some m) ∧ IsMeet links (g.pred u) m ∧
      links' = links.setIfInBounds u (some m) := by
  simp only [DominatorTree.relink, Option.bind_eq_bind, Option.bind_eq_some_iff] at h
  obtain ⟨found, hall, hresult⟩ := h
  have hcombines := R.combines_meetAll N.head (R.size.symm ▸ N.length_le) hall
  have hgathered : Gathered links (g.pred u) found :=
    R.gathered_of_combines N.head hcombines fun _ hp => absurd hp List.not_mem_nil
  cases found with
  | none =>
    obtain ⟨q, hq, hlinked, -⟩ := R.exists_earlier N converse hu hne
    simp [hgathered q hq] at hlinked
  | some m => exact ⟨m, hcombines, hgathered, (Option.some.inj hresult).symm⟩

include M

theorem meet_lt : order.idxOf m < order.idxOf u := by
  obtain ⟨q, hq, hlinked, hlt⟩ := R.exists_earlier N converse hu hne
  exact (R.idxOf_le (M.common q hq hlinked)).trans_lt hlt

/-- Linking the node whose turn it is to the meet of its linked predecessors keeps the invariant,
for the turn after. -/
theorem set_meet : Refining g entry order (order.idxOf u + 1) (links.setIfInBounds u (some m)) := by
  have husize : u < links.size := R.size.symm ▸ N.bounded u hu
  have hmu := R.meet_lt N converse hu hne M
  have hm : ¬ Climbs links m u := fun h => by
    have := R.idxOf_le h
    omega
  generalize hdef : links.setIfInBounds u (some m) = links'
  have hset : ∀ n, link links' n = if n = u then some m else link links n :=
    fun n => hdef ▸ link_set husize (some m) n
  have hlinks : ∀ n, n ≠ u → link links' n = link links n := fun n hn => by rw [hset, if_neg hn]
  have hu' : link links' u = some m := by rw [hset, if_pos rfl]
  have hsome : ∀ n, (link links n).isSome → (link links' n).isSome := by grind
  -- chains of the meet do not run through `u`
  have hmeet : ∀ x, Climbs links m x → Climbs links' m x := fun x =>
    (climbs_of_not_climbs hlinks hm).mpr
  refine ⟨by simp [← hdef, R.size], ?_, ?_, ?_, ?_, ?_, ?_, ?_⟩
  · rw [hlinks entry (Ne.symm hne)]
    exact R.root
  · intro n p hnp
    by_cases hn : n = u
    · rwa [hn]
    · exact R.listed (hlinks n hn ▸ hnp)
  · intro n p hnp hentry
    by_cases hn : n = u
    · subst hn
      cases hu'.symm.trans hnp
      exact ⟨hmu, hsome _ M.linked⟩
    · have := R.descends (hlinks n hn ▸ hnp) hentry
      exact ⟨this.1, hsome _ this.2⟩
  · intro n hn hlt
    by_cases hnu : n = u
    · simp [hnu, hu']
    · have hidx : order.idxOf n ≠ order.idxOf u := fun e => hnu ((List.idxOf_inj hn).mp e)
      exact hsome n (R.linked n hn (by omega))
  · -- `upper`: common nodes of the new chains are common nodes of the old ones
    intro n p hnp hentry x hx
    have hold : ∀ q ∈ g.pred n, (link links q).isSome → Climbs links q x := fun q hq hlinked =>
      R.climbs_of_relinked hne M hlinks hu' hm hlinked (hx q hq (hsome q hlinked))
    by_cases hn : n = u
    · subst hn
      cases hu'.symm.trans hnp
      exact hmeet x (M.greatest x hold)
    · rw [hlinks n hn] at hnp
      have hpx := R.upper hnp hentry x hold
      by_cases hpu : Climbs links p u
      · rw [R.climbs_of_climbs hlinks hu' hm hpu]
        rcases R.carried hnp hentry with ⟨q, hq, hlinked, -, hqp⟩ | ⟨-, hearly⟩
        · have hqx := hx q hq (hsome q hlinked)
          rw [R.climbs_of_climbs hlinks hu' hm (hqp.trans hpu)] at hqx
          exact hqx.imp_left fun ⟨_, hxu⟩ => ⟨hpx, hxu⟩
        · have := R.idxOf_le hpu
          omega
      · exact (climbs_of_not_climbs hlinks hpu).mpr hpx
  · -- `carried`: a predecessor loses the link only if its chain is moved past it
    intro n p hnp hentry
    by_cases hn : n = u
    · subst hn
      cases hu'.symm.trans hnp
      obtain ⟨q, hq, hlinked, hlt⟩ := R.exists_earlier N converse hu hne
      refine .inl ⟨q, hq, hsome q hlinked, hlt, ?_⟩
      refine (climbs_of_not_climbs hlinks fun h => ?_).mpr (M.common q hq hlinked)
      have := R.idxOf_le h
      omega
    · rw [hlinks n hn] at hnp
      have hidx : order.idxOf n ≠ order.idxOf u :=
        fun e => hn ((List.idxOf_inj (R.listed hnp)).mp e)
      rcases R.carried hnp hentry with ⟨q, hq, hlinked, hlt, hqp⟩ | ⟨hwait, hearly⟩
      · by_cases hqu : Climbs links q u
        · by_cases hpu : Climbs links p u
          · refine .inl ⟨q, hq, hsome q hlinked, hlt, ?_⟩
            exact (R.climbs_of_climbs hlinks hu' hm hqu).mpr (.inl ⟨hqp, hpu⟩)
          · have hup := (hqu.total hqp).resolve_right hpu
            have hne' : p ≠ u := by
              rintro rfl
              exact hpu (.refl _)
            have := R.idxOf_lt hup hne'
            have := R.idxOf_le hqu
            exact .inr ⟨by omega, by omega⟩
        · refine .inl ⟨q, hq, hsome q hlinked, hlt, ?_⟩
          exact (climbs_of_not_climbs hlinks hqu).mpr hqp
      · exact .inr ⟨by omega, by omega⟩
  · -- `dominators`: what dominates `u` is common to its predecessors, hence above their meet
    have hdom : ∀ d, g.Dominates entry d u → d ≠ u → Climbs links m d := fun d hd hdu =>
      M.greatest d fun p hp hlinked =>
        R.dominators hlinked d (hd.pred hdu ((converse p u).mp hp))
    intro n hn d hd
    by_cases hnu : n = u
    · subst hnu
      rw [climbs_changed hlinks hu' hm]
      by_cases hdn : d = n
      · exact .inl hdn
      · exact .inr (hdom d hd hdn)
    · rw [hlinks n hnu] at hn
      have hnd := R.dominators hn d hd
      by_cases hclimb : Climbs links n u
      · rw [R.climbs_of_climbs hlinks hu' hm hclimb]
        rcases hnd.total hclimb with hdu | hud
        · exact .inl ⟨hnd, hdu⟩
        · by_cases hdu : d = u
          · subst hdu
            exact .inl ⟨hnd, .refl _⟩
          · have hlt := R.idxOf_lt hud hdu
            exact .inr (hdom d (R.dominates_turn converse hn hclimb hd hlt) hdu)
      · exact (climbs_of_not_climbs hlinks hclimb).mpr hnd

/-- Linking to the meet lowers the potential unless it changes nothing. -/
theorem potential_set_meet :
    potential order (links.setIfInBounds u (some m)) ≤ potential order links ∧
      (potential order (links.setIfInBounds u (some m)) = potential order links →
        link links u = some m) := by
  have husize : u < links.size := R.size.symm ▸ N.bounded u hu
  -- the old link is a common node above the meet, or there was none
  have hlt : link links u ≠ some m → order.idxOf m <
      ((link links u).map order.idxOf).getD order.length := by
    intro hlink
    cases hold : link links u with
    | none => exact (R.meet_lt N converse hu hne M).trans (List.idxOf_lt_length_of_mem hu)
    | some old =>
      refine R.idxOf_lt (R.upper hold hne m M.common) ?_
      rintro rfl
      exact hlink hold
  by_cases hlink : link links u = some m
  · rw [set_link_eq hlink]
    exact ⟨Nat.le_refl _, fun _ => hlink⟩
  have hpoint : ∀ n ∈ order,
      ((link (links.setIfInBounds u (some m)) n).map order.idxOf).getD order.length ≤
        ((link links n).map order.idxOf).getD order.length := by
    intro n _
    rw [link_set husize]
    by_cases hn : n = u
    · subst hn
      simpa using (hlt hlink).le
    · simp [hn]
  have hsum : potential order (links.setIfInBounds u (some m)) < potential order links := by
    refine List.sum_lt_sum _ _ hpoint ⟨u, hu, ?_⟩
    rw [link_set husize]
    simpa using hlt hlink
  exact ⟨hsum.le, fun h => absurd h hsum.ne⟩

end Turn

/-! ### Sweeps -/

/-- The node whose turn it is has the number of those that had theirs before, and is not the entry,
which comes first. -/
theorem turn (N : g.Numbering entry order) {done rest : List Nat}
    (horder : order = done ++ u :: rest) (hdone : entry ∈ done) :
    order.idxOf u = done.length ∧ u ∈ order ∧ u ≠ entry := by
  have hnodup : (done ++ u :: rest).Nodup := horder ▸ N.nodup
  have hnot : u ∉ done := fun hmem =>
    (List.nodup_append.mp hnodup).2.2 u hmem u (by simp) rfl
  refine ⟨?_, by simp [horder], fun e => hnot (e ▸ hdone)⟩
  rw [horder, List.idxOf_append_of_notMem hnot, List.idxOf_cons_self, Nat.add_zero]

theorem restart (R : Refining g entry order order.length links) (hlength : 1 ≤ order.length) :
    Refining g entry order 1 links where
  size := R.size
  root := R.root
  listed := R.listed
  descends := R.descends
  linked n hn hlt := R.linked n hn (by omega)
  upper := R.upper
  carried {n m} hnm hne := by
    refine .inl ((R.carried hnm hne).resolve_right fun ⟨hwait, _⟩ => ?_)
    have := List.idxOf_lt_length_of_mem (R.listed hnm)
    omega
  dominators := R.dominators

section Sweeping

variable (N : g.Numbering entry order) (converse : ∀ a b, a ∈ g.pred b ↔ b ∈ g.succ a)

include N converse

/-- The rest of a sweep. If the potential stays, so do the links, and each of them is a meet. -/
theorem relink_all (done : List Nat) (horder : order = done ++ todo) (hdone : entry ∈ done)
    (R : Refining g entry order done.length links)
    (h : todo.foldlM (DominatorTree.relink g order) links = some links') :
    Sweeps g order todo links links' ∧ Refining g entry order order.length links' ∧
      potential order links' ≤ potential order links ∧
      (potential order links' = potential order links → links' = links ∧
        ∀ u ∈ todo, ∃ m, link links u = some m ∧ IsMeet links (g.pred u) m) := by
  induction todo generalizing done links with
  | nil =>
    simp only [List.foldlM_nil, Option.pure_def, Option.some.injEq] at h
    subst h
    have hlength : order.length = done.length := by simp [horder]
    rw [hlength]
    exact ⟨.done links, R, Nat.le_refl _, fun _ => ⟨rfl, by simp⟩⟩
  | cons u rest ih =>
    simp only [List.foldlM_cons, Option.bind_eq_bind, Option.bind_eq_some_iff] at h
    obtain ⟨middle, hrelink, hrest⟩ := h
    obtain ⟨hidx, hu, hne⟩ := turn N horder hdone
    rw [← hidx] at R
    obtain ⟨m, hcombines, M, rfl⟩ := R.relink N converse hu hne hrelink
    have hsize : u < links.size := R.size.symm ▸ N.bounded u hu
    obtain ⟨hle, heq⟩ := R.potential_set_meet N converse hu hne M
    have R' := R.set_meet N converse hu hne M
    rw [hidx] at R'
    obtain ⟨hsweeps, Rend, hle', heq'⟩ := ih (done ++ [u]) (by simp [horder]) (by simp [hdone])
      (by simpa using R') hrest
    refine ⟨.relink hsize hcombines ?_, Rend, hle'.trans hle, fun hsame => ?_⟩
    · rwa [Array.setIfInBounds_def, dif_pos hsize] at hsweeps
    -- the potential falls nowhere, so it stays at this node and in the rest of the sweep
    have hlink := heq (by omega)
    rw [set_link_eq hlink] at heq' hle hle'
    obtain ⟨rfl, hmeets⟩ := heq' (by omega)
    refine ⟨rfl, fun v hv => ?_⟩
    rcases List.mem_cons.mp hv with rfl | hv
    · exact ⟨m, hlink, M⟩
    · exact hmeets v hv

/-- Sweeping settles, and ends with links that are all meets, if there is fuel for the potential. -/
theorem refine_meets (R : Refining g entry order 1 links) (hfuel : potential order links < fuel)
    (h : refine g order fuel links = some links') :
    (Settles g order links links' ∧ Rests g order links links') ∧
      Refining g entry order order.length links' ∧
      ∀ u ∈ order, u ≠ entry → ∃ m, link links' u = some m ∧ IsMeet links' (g.pred u) m := by
  obtain ⟨rest, horder⟩ := List.head?_eq_some_iff.mp N.head
  have htail : order.tail = rest := by rw [horder, List.tail_cons]
  induction fuel generalizing links with
  | zero => omega
  | succ fuel ih =>
    simp only [refine, Option.bind_eq_bind, Option.bind_eq_some_iff] at h
    obtain ⟨next, hsweep, hnext⟩ := h
    have hfold := hsweep
    rw [sweep, htail] at hfold
    obtain ⟨hsweeps, R', hle, hsame⟩ := relink_all N converse [entry] horder (by simp) R hfold
    rw [← htail] at hsweeps
    split at hnext
    · -- a sweep that changes nothing leaves a meet at each node
      rename_i heq
      subst heq
      cases hnext
      refine ⟨⟨.rest hsweep, .stay hsweeps⟩, R', fun u hu hne => (hsame rfl).2 u ?_⟩
      simpa [horder, hne] using hu
    · -- and one that changes something takes some of the potential, which is the fuel
      rename_i hchanged
      have hlt : potential order next < potential order links :=
        lt_of_le_of_ne hle fun e => hchanged (hsame e).1
      obtain ⟨⟨hsettles, hrests⟩, hmeets⟩ := ih (R'.restart (by simp [horder])) (by omega) hnext
      exact ⟨⟨.sweep hsweep hchanged hsettles, .again hsweeps hchanged hrests⟩, hmeets⟩

end Sweeping

theorem initial (N : g.Numbering entry order) :
    Refining g entry order 1 ((Array.replicate g.size none).setIfInBounds entry (some entry)) := by
  have hentry : entry ∈ order := List.mem_of_head? N.head
  have hsize := N.bounded entry hentry
  have hlink : ∀ n, link ((Array.replicate g.size none).setIfInBounds entry (some entry)) n =
      if n = entry then some entry else none := by
    intro n
    rw [link_set (by simpa using hsize)]
    split
    · rfl
    · rw [link, Array.getElem?_replicate]
      split <;> rfl
  have hfirst : order.idxOf entry = 0 := by
    obtain ⟨rest, rfl⟩ := List.head?_eq_some_iff.mp N.head
    exact List.idxOf_cons_self
  have honly : ∀ {n m}, link ((Array.replicate g.size none).setIfInBounds entry (some entry)) n =
      some m → n = entry := by grind
  refine ⟨by simp, by simp [hlink], fun h => honly h ▸ hentry,
    fun h hne => absurd (honly h) hne, fun n hn hlt => ?_, fun h hne => absurd (honly h) hne,
    fun h hne => absurd (honly h) hne, fun {n} hn d hd => ?_⟩
  · have : n = entry := (List.idxOf_inj hn).mp (by omega)
    simp [hlink, this]
  · obtain ⟨m, hm⟩ := Option.isSome_iff_exists.mp hn
    obtain rfl := honly hm
    obtain rfl : d = n := by simpa using hd [n] .start
    exact .refl _

/-- If all links are meets, the chain of a reached node is the list of its dominators. -/
theorem climbs_iff_dominates (R : Refining g entry order order.length links)
    (N : g.Numbering entry order) (converse : ∀ a b, a ∈ g.pred b ↔ b ∈ g.succ a)
    (hmeets : ∀ u ∈ order, u ≠ entry → ∃ m, link links u = some m ∧ IsMeet links (g.pred u) m)
    (hn : n ∈ order) (d : Nat) : Climbs links n d ↔ g.Dominates entry d n := by
  have hlinked : ∀ v ∈ order, (link links v).isSome := fun v hv =>
    R.linked v hv (List.idxOf_lt_length_of_mem hv)
  refine ⟨fun hclimb nodes walk => ?_, R.dominators (hlinked n hn) d⟩
  -- the induction is on the walk; the chain of its last node is common to all predecessors
  clear hn
  induction walk generalizing d with
  | start =>
    rw [R.climbs_entry hclimb]
    simp
  | @step nodes node next walk edge ih =>
    by_cases hentry : next = entry
    · subst hentry
      rw [R.climbs_entry hclimb]
      simp
    · have hnext : next ∈ order := (N.mem_iff next).mpr ⟨_, walk.step edge⟩
      have hnode : node ∈ order := (N.mem_iff node).mpr ⟨_, walk⟩
      obtain ⟨m, hm, M⟩ := hmeets next hnext hentry
      rcases hclimb.eq_or_of_link hm with rfl | hmd
      · simp
      · have hnodem := M.common node ((converse node next).mpr edge) (hlinked node hnode)
        exact List.mem_append_left _ (ih d (hnodem.trans hmd))

end Refining

/-! ### The computed tree -/

variable {t : DominatorTree}

section Chains

variable (R : Refining g entry order order.length links) (hentry : entry < links.size)
  (hidom : t.idom = links.setIfInBounds entry none)

include hentry hidom in
theorem idom?_eq (n : Nat) : t.idom? n = if n = entry then none else link links n := by
  rw [idom?, hidom, Refining.link_set hentry]

include R hentry hidom

/-- The chain that a tree lists follows its links up to the entry. -/
theorem ascends_chainFrom (head : order.head? = some entry) (hn : n ∈ order)
    (hfuel : order.idxOf n ≤ fuel) : t.Ascends n (t.chainFrom fuel n) := by
  have hroot : t.idom[entry]? = some none := by grind
  induction fuel generalizing n with
  | zero =>
    obtain rfl : n = entry := by grind [List.head?_eq_some_iff, List.idxOf_inj]
    exact .root hroot
  | succ fuel ih =>
    by_cases hne : n = entry
    · subst hne
      have hnone := idom?_eq hentry hidom n
      simp only [chainFrom, hnone]
      exact .root hroot
    · obtain ⟨m, hm⟩ := Option.isSome_iff_exists.mp
        (R.linked n hn (List.idxOf_lt_length_of_mem hn))
      have hidom? : t.idom? n = some m := by rw [idom?_eq hentry hidom, if_neg hne, hm]
      -- the fuel lasts because the parent has a smaller number
      have hdown := R.descends hm hne
      simp only [chainFrom, hidom?]
      exact .up (link_eq_some_iff.mp hidom?) (ih (R.mem_order hdown.2) (by omega))

/-- What is listed is the chain of the links, and the entry comes last. -/
theorem Ascends.mem_iff (h : t.Ascends n nodes) (hn : n ∈ order) :
    (∀ a, a ∈ nodes ↔ Climbs links n a) ∧ nodes.getLast? = some entry := by
  induction h with
  | @root n hnone =>
    -- a reached node other than the entry is linked
    obtain rfl : n = entry := by
      by_contra hne
      have hlinked := R.linked n hn (List.idxOf_lt_length_of_mem hn)
      have hidom? := idom?_eq hentry hidom n
      rw [if_neg hne, idom?, link, hnone] at hidom?
      simp [← hidom?] at hlinked
    exact ⟨fun a => ⟨fun h => List.mem_singleton.mp h ▸ .refl _,
      fun h => List.mem_singleton.mpr (R.climbs_entry h)⟩, rfl⟩
  | @up n parent nodes hup _ ih =>
    have hlink := idom?_eq hentry hidom n
    rw [show t.idom? n = some parent from link_eq_some_iff.mpr hup] at hlink
    split at hlink
    · cases hlink
    · rename_i hne
      obtain ⟨hmem, hlast⟩ := ih (R.mem_order (R.descends hlink.symm hne).2)
      refine ⟨fun a => ?_, by rw [List.getLast?_cons, hlast, Option.getD_some]⟩
      rw [List.mem_cons, hmem]
      constructor
      · rintro (rfl | hclimb)
        · exact .refl _
        · exact .up hlink.symm hclimb
      · exact fun hclimb => hclimb.eq_or_of_link hlink.symm

end Chains

section Computed

variable (hentry : entry < g.size) (converse : ∀ a b, a ∈ g.pred b ↔ b ∈ g.succ a)
  (h : compute g entry = some t)

include hentry converse h

theorem compute_cases :
    g.reversePostorder entry = some t.reached ∧ g.Numbering entry t.reached ∧ ∃ links,
      (Settles g t.reached ((Array.replicate g.size none).setIfInBounds entry (some entry)) links ∧
        Rests g t.reached ((Array.replicate g.size none).setIfInBounds entry (some entry)) links) ∧
      Refining g entry t.reached t.reached.length links ∧
      (∀ u ∈ t.reached, u ≠ entry → ∃ m, link links u = some m ∧ IsMeet links (g.pred u) m) ∧
      t.entry = entry ∧ t.idom = links.setIfInBounds entry none := by
  simp only [compute, Nat.not_le.mpr hentry, if_false, Option.bind_eq_bind,
    Option.bind_eq_some_iff, Option.pure_def, Option.some.injEq] at h
  obtain ⟨order, horder, links, hlinks, rfl⟩ := h
  have N := reversePostorder_numbering hentry horder
  have R := Refining.initial N
  have hfuel := (Refining.potential_le order
    ((Array.replicate g.size none).setIfInBounds entry (some entry))).trans
      (Nat.mul_le_mul N.length_le N.length_le)
  obtain ⟨hsettles, R', hmeets⟩ :=
    Refining.refine_meets N converse R (Nat.lt_succ_of_le hfuel) hlinks
  exact ⟨horder, N, links, hsettles, R', hmeets, rfl, rfl⟩

theorem compute_isReachable (n : Nat) : t.isReachable n ↔ g.Reaches entry n := by
  obtain ⟨-, N, -⟩ := compute_cases hentry converse h
  rw [isReachable, decide_eq_true_iff]
  exact N.mem_iff n

theorem ascends_chain {b : Nat} (hb : g.Reaches entry b) :
    t.Ascends b (t.chain b) ∧ (∀ a, a ∈ t.chain b ↔ g.Dominates entry a b) ∧
      (t.chain b).getLast? = some entry := by
  obtain ⟨-, N, links, -, R, hmeets, -, hidom⟩ := compute_cases hentry converse h
  have hmem : b ∈ t.reached := (N.mem_iff b).mpr hb
  have hroot : entry < links.size := R.size.symm ▸ hentry
  have hsize : t.size = g.size := by rw [size, hidom, Array.size_setIfInBounds, R.size]
  have hfuel : t.reached.idxOf b ≤ t.size :=
    hsize ▸ (List.idxOf_lt_length_of_mem hmem).le.trans N.length_le
  have hascends := ascends_chainFrom R hroot hidom N.head hmem hfuel
  obtain ⟨hclimbs, hlast⟩ := hascends.mem_iff R hroot hidom hmem
  exact ⟨hascends, fun a => (hclimbs a).trans (R.climbs_iff_dominates N converse hmeets hmem a),
    hlast⟩

/-- The tree has one node dominate another if they are the same, or if both are reached and all
walks to the second come through the first. -/
theorem compute_dominates (a b : Nat) :
    t.dominates a b ↔ a = b ∨ (g.Reaches entry a ∧ g.Reaches entry b ∧ g.Dominates entry a b) := by
  simp only [dominates, Bool.or_eq_true, decide_eq_true_eq, Bool.and_eq_true,
    compute_isReachable hentry converse h, and_assoc, List.contains_iff_mem]
  exact or_congr_right (and_congr_right fun _ => and_congr_right fun hb =>
    (ascends_chain hentry converse h hb).2.1 a)

end Computed

end PointerGuard.DominatorTree
