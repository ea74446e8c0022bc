import Mathlib.Data.Finset.Card
import PointerGuard.Coverage
import PointerGuard.Proofs.Sources
import PointerGuard.Weave

/-!
# What covered accesses rest on

A key check covers an access if on every way there the check was made before, and since then the
program has made no call that matters. The two searches find exactly such accesses. For dominated
blocks the argument follows a walk back from the access to the last visit of the block of the check.
-/

namespace PointerGuard

variable {dirt : Dirt} {exits : List BlockId} {q block : BlockId} {dirty : Bool}
  {scope : CheckScope} {P : Dirt → Prop} {place : BlockId ⊕ BlockId} {tree : DominatorTree}
  {n : Nat} {d : DominatedBlock} {insts accesses : List ValueId} {nodes after : List Nat}

/-! ### Dirt -/

/-- The dirty entries, and the dirty exits. -/
def Dirt.places (dirt : Dirt) : Finset (BlockId ⊕ BlockId) :=
  (dirt.entries.map Sum.inl ++ dirt.exits.map Sum.inr).toFinset

@[simp] theorem Dirt.inl_mem_places : .inl q ∈ dirt.places ↔ q ∈ dirt.entries := by
  simp [places]

@[simp] theorem Dirt.inr_mem_places : .inr q ∈ dirt.places ↔ q ∈ dirt.exits := by
  simp [places]

theorem mem_setDirty {blocks : List BlockId} {b : BlockId} :
    b ∈ setDirty blocks block dirty ↔ if b = block then dirty = true else b ∈ blocks := by
  rw [setDirty]
  split <;> split <;> simp_all

/-- Noting what is known already changes nothing. -/
theorem setDirty_eq_self {blocks : List BlockId} (h : decide (block ∈ blocks) = dirty) :
    setDirty blocks block dirty = blocks := by
  subst h
  rw [setDirty]
  split
  · exact List.insert_of_mem (by simp_all)
  · exact List.filter_eq_self.mpr (by simp_all; grind)

namespace CheckScope

variable {isReachable : BlockId → Bool} {swept : Dirt} {exits' : List BlockId}
  {blocks : List DominatedBlock} {rounds : Nat}

theorem entersDirty_mono (hsub : ∀ b ∈ exits, b ∈ exits')
    (h : scope.entersDirty isReachable exits d) : scope.entersDirty isReachable exits' d := by
  obtain ⟨pred, hpred, hdirty⟩ := List.any_eq_true.mp h
  refine List.any_eq_true.mpr ⟨pred, hpred, ?_⟩
  grind

theorem visit_eq_of_isSettled (h : scope.isSettled isReachable dirt d) :
    scope.visit isReachable dirt d = dirt := by
  rw [isSettled, Bool.and_eq_true, beq_iff_eq, beq_iff_eq] at h
  rw [visit, setDirty_eq_self h.1, setDirty_eq_self h.2]

/-- What every visit to a block of the region keeps, a sweep keeps. -/
theorem sweep_keeps
    (hvisit : ∀ dirt, ∀ d ∈ scope.region, P dirt → P (scope.visit isReachable dirt d))
    (hblocks : ∀ d ∈ blocks, d ∈ scope.region) (h : P dirt) :
    P (scope.sweep isReachable blocks dirt).1 := by
  induction blocks generalizing dirt with
  | nil => exact h
  | cons d blocks ih =>
    rw [List.forall_mem_cons] at hblocks
    exact ih hblocks.2 (hvisit dirt d hblocks.1 h)

theorem settle_keeps
    (hvisit : ∀ dirt, ∀ d ∈ scope.region, P dirt → P (scope.visit isReachable dirt d))
    (h : P dirt) :
    P (scope.settle isReachable rounds dirt) := by
  induction rounds generalizing dirt with
  | zero => exact h
  | succ rounds ih =>
    have hswept := sweep_keeps hvisit (fun d (hd : d ∈ scope.region) => hd) h
    cases hsweep : scope.sweep isReachable scope.region dirt with
    | mk swept changed =>
      rw [hsweep] at hswept
      rw [settle, hsweep]
      cases changed with
      | false => exact hswept
      | true => exact ih hswept

/-- A sweep that changes nothing finds everything settled. -/
theorem isSettled_of_sweep (h : scope.sweep isReachable blocks dirt = (swept, false)) :
    swept = dirt ∧ ∀ d ∈ blocks, scope.isSettled isReachable dirt d := by
  induction blocks generalizing dirt with
  | nil => exact ⟨(congrArg Prod.fst h).symm, by simp⟩
  | cons d blocks ih =>
    rw [sweep, Prod.mk.injEq, Bool.or_eq_false_iff, Bool.not_eq_false'] at h
    have heq := visit_eq_of_isSettled h.2.1
    obtain ⟨hswept, hrest⟩ := ih (Prod.ext h.1 h.2.2)
    rw [heq] at hswept hrest
    exact ⟨hswept, List.forall_mem_cons.mpr ⟨h.2.1, hrest⟩⟩

/-- The repeated sweeps, without a limit to their number. The last one changes nothing. -/
inductive Settles (scope : CheckScope) (isReachable : BlockId → Bool) : Dirt → Dirt → Prop
  | done {dirt swept : Dirt} : scope.sweep isReachable scope.region dirt = (swept, false) →
      Settles scope isReachable dirt swept
  | again {dirt swept final : Dirt} : scope.sweep isReachable scope.region dirt = (swept, true) →
      Settles scope isReachable swept final → Settles scope isReachable dirt final

theorem Settles.isSettled {final : Dirt} (h : scope.Settles isReachable dirt final) :
    ∀ d ∈ scope.region, scope.isSettled isReachable final d := by
  induction h with
  | done hsweep =>
    obtain ⟨rfl, hsettled⟩ := isSettled_of_sweep hsweep
    exact hsettled
  | again _ _ ih => exact ih

/-- What a visit to its block would find dirty. -/
def Finds (scope : CheckScope) (isReachable : BlockId → Bool) (dirt : Dirt) :
    BlockId ⊕ BlockId → Prop
  | .inl b => ∃ d ∈ scope.region, d.block = b ∧ scope.entersDirty isReachable dirt.exits d
  | .inr b => ∃ d ∈ scope.region, d.block = b ∧
      (scope.entersDirty isReachable dirt.exits d || d.hasCall)

theorem Finds.mono {dirt' : Dirt} (hsub : dirt.places ⊆ dirt'.places)
    (h : scope.Finds isReachable dirt place) :
    scope.Finds isReachable dirt' place := by
  have hgrows : ∀ {d}, scope.entersDirty isReachable dirt.exits d →
      scope.entersDirty isReachable dirt'.exits d :=
    entersDirty_mono fun b hb => Dirt.inr_mem_places.mp (hsub (Dirt.inr_mem_places.mpr hb))
  cases place <;> simp only [Finds, Bool.or_eq_true] at h ⊢ <;> grind

/-- All dirt is there for a reason that a visit would find again. -/
def Justified (scope : CheckScope) (isReachable : BlockId → Bool) (dirt : Dirt) : Prop :=
  ∀ place ∈ dirt.places, scope.Finds isReachable dirt place

theorem justified_clean : scope.Justified isReachable {} := by
  simp [Justified, Dirt.places]

theorem Justified.card_places_le (J : scope.Justified isReachable dirt) :
    dirt.places.card ≤ 2 * scope.region.length := by
  let all := scope.region.flatMap fun d => [Sum.inl d.block, Sum.inr d.block]
  calc dirt.places.card
      ≤ all.toFinset.card := Finset.card_le_card fun place hplace => by
        have hfinds := J place hplace
        cases place <;> simp only [Finds] at hfinds <;> simp [all] <;> grind
    _ ≤ all.length := List.toFinset_card_le _
    _ = 2 * scope.region.length := by simp [all, List.length_flatMap, Nat.mul_comm]

section

variable (hnodup : (scope.region.map DominatedBlock.block).Nodup)

include hnodup

/-- A visit to a block replaces what is known of it by what is found. -/
theorem mem_places_visit (hd : d ∈ scope.region) :
    place ∈ (scope.visit isReachable dirt d).places ↔
      if place.elim id id = d.block then scope.Finds isReachable dirt place
      else place ∈ dirt.places := by
  have hsame : ∀ e ∈ scope.region, e.block = d.block → e = d := fun e he heq =>
    List.inj_on_of_nodup_map hnodup he hd heq
  cases place <;> simp only [Dirt.inl_mem_places, Dirt.inr_mem_places, visit, mem_setDirty, Finds,
    Sum.elim_inl, Sum.elim_inr, id] <;> grind

/-- A visit finds all dirt of its block again, so dirt only grows. -/
theorem Justified.subset_visit (J : scope.Justified isReachable dirt) (hd : d ∈ scope.region) :
    dirt.places ⊆ (scope.visit isReachable dirt d).places := by
  intro place hplace
  rw [mem_places_visit hnodup hd]
  split
  · exact J place hplace
  · exact hplace

theorem Justified.visit (dirt : Dirt) (d : DominatedBlock) (hd : d ∈ scope.region)
    (J : scope.Justified isReachable dirt) :
    scope.Justified isReachable (scope.visit isReachable dirt d) := by
  intro place hplace
  rw [mem_places_visit hnodup hd] at hplace
  refine Finds.mono (J.subset_visit hnodup hd) ?_
  split at hplace
  · exact hplace
  · exact J place hplace

/-- Whichever blocks are visited, and in whichever order, dirt only grows. -/
theorem subset_visit_of_visits (hblocks : ∀ d ∈ blocks, d ∈ scope.region) (hd : d ∈ scope.region) :
    (blocks.foldl (scope.visit isReachable) {}).places ⊆
      (scope.visit isReachable (blocks.foldl (scope.visit isReachable) {}) d).places := by
  refine Justified.subset_visit hnodup ?_ hd
  exact List.foldlRecOn blocks _ justified_clean fun dirt J d hd =>
    J.visit hnodup dirt d (hblocks d hd)

/-- A visit to a block that is not settled finds more dirt. -/
theorem Justified.card_places_lt_visit (J : scope.Justified isReachable dirt)
    (hd : d ∈ scope.region) (h : scope.isSettled isReachable dirt d = false) :
    dirt.places.card < (scope.visit isReachable dirt d).places.card := by
  refine Finset.card_lt_card ((J.subset_visit hnodup hd).ssubset_of_ne fun heq => ?_)
  have hentry := Finset.ext_iff.mp heq (.inl d.block)
  have hexit := Finset.ext_iff.mp heq (.inr d.block)
  simp only [Dirt.inl_mem_places, Dirt.inr_mem_places, CheckScope.visit, mem_setDirty, if_true]
    at hentry hexit
  simp [isSettled, hentry, hexit] at h

private theorem Justified.subset_sweep (J : scope.Justified isReachable dirt)
    (hblocks : ∀ d ∈ blocks, d ∈ scope.region) :
    dirt.places ⊆ (scope.sweep isReachable blocks dirt).1.places := by
  refine (sweep_keeps (P := fun dirt' => scope.Justified isReachable dirt' ∧
    dirt.places ⊆ dirt'.places) (fun dirt' d hd h => ?_) hblocks ⟨J, subset_rfl⟩).2
  exact ⟨h.1.visit hnodup _ _ hd, h.2.trans (h.1.subset_visit hnodup hd)⟩

private theorem Justified.card_places_lt_sweep (J : scope.Justified isReachable dirt)
    (hblocks : ∀ d ∈ blocks, d ∈ scope.region)
    (h : scope.sweep isReachable blocks dirt = (swept, true)) :
    dirt.places.card < swept.places.card := by
  induction blocks generalizing dirt with
  | nil => cases h
  | cons d blocks ih =>
    rw [List.forall_mem_cons] at hblocks
    rw [sweep, Prod.mk.injEq, Bool.or_eq_true, Bool.not_eq_true'] at h
    obtain ⟨rfl, hchanged⟩ := h
    cases hsettled : scope.isSettled isReachable dirt d with
    | false =>
      have J' := J.visit hnodup dirt d hblocks.1
      exact (J.card_places_lt_visit hnodup hblocks.1 hsettled).trans_le
        (Finset.card_le_card (J'.subset_sweep hnodup hblocks.2))
    | true =>
      -- the visit to the first block has changed nothing, so a later one has
      have hrest := hchanged.resolve_left (by simp [hsettled])
      have hsame := visit_eq_of_isSettled hsettled
      exact ih J hblocks.2 (Prod.ext (by rw [hsame]) (by rwa [hsame] at hrest))

/-- A sweep that changes something finds more dirt, and there is not room for more than two places
in each block. So the sweeps come to an end. -/
theorem Justified.settles (J : scope.Justified isReachable dirt)
    (h : 2 * scope.region.length < dirt.places.card + rounds) :
    scope.Settles isReachable dirt (scope.settle isReachable rounds dirt) := by
  induction rounds generalizing dirt with
  | zero =>
    have := J.card_places_le
    omega
  | succ rounds ih =>
    rw [settle]
    cases hsweep : scope.sweep isReachable scope.region dirt with
    | mk swept changed =>
      cases changed with
      | false => exact .done hsweep
      | true =>
        have hmore := J.card_places_lt_sweep hnodup (fun _ => id) hsweep
        have J' := sweep_keeps (Justified.visit hnodup) (fun d (hd : d ∈ scope.region) => hd) J
        rw [hsweep] at J'
        exact .again hsweep (ih J' (by omega))

theorem settles_dirt : scope.Settles isReachable {} (scope.dirt isReachable) :=
  justified_clean.settles hnodup (by omega)

/-- In the end a block is dirty exactly where a visit finds it so. -/
theorem mem_dirt_iff (hd : d ∈ scope.region) :
    (d.block ∈ (scope.dirt isReachable).entries ↔
      scope.entersDirty isReachable (scope.dirt isReachable).exits d) ∧
    (d.block ∈ (scope.dirt isReachable).exits ↔
      scope.entersDirty isReachable (scope.dirt isReachable).exits d ∨ d.hasCall) := by
  have settles : scope.Settles isReachable {} _ := settles_dirt hnodup
  have h := settles.isSettled d hd
  rw [isSettled, Bool.and_eq_true, beq_iff_eq, beq_iff_eq] at h
  constructor
  · rw [← h.1, decide_eq_true_iff]
  · rw [← Bool.or_eq_true, ← h.2, decide_eq_true_iff]

end

/-- Blocks that no visit finds dirty as long as none of them is are never found dirty. -/
theorem not_mem_exits_dirt (good : BlockId → Prop)
    (hgood : ∀ exits, (∀ b, good b → b ∉ exits) → ∀ d ∈ scope.region, good d.block →
      d.hasCall = false ∧ scope.entersDirty isReachable exits d = false)
    (h : good q) : q ∉ (scope.dirt isReachable).exits := by
  refine settle_keeps (P := fun dirt => ∀ b, good b → b ∉ dirt.exits)
    (fun dirt d hd hclean b hb => ?_)
    (by simp) q h
  rw [visit, mem_setDirty]
  split
  · obtain rfl : b = d.block := ‹_›
    simp [hgood dirt.exits hclean d hd hb]
  · exact hclean b hb

/-- A scope shows a graph: no block is listed twice, and every edge into a block of the region from
the origin or from the region is known. -/
structure Shows (scope : CheckScope) (g : Digraph) : Prop where
  nodup : (scope.region.map DominatedBlock.block).Nodup
  preds : ∀ d ∈ scope.region, ∀ p, d.block.index ∈ g.succ p →
    p = scope.origin.index ∨ (∃ e ∈ scope.region, e.block = ⟨p⟩) → ⟨p⟩ ∈ d.preds

/-- Going back from a clean entry, every block up to the origin is free of calls. -/
theorem free_of_calls {g : Digraph} (S : scope.Shows g) {p : Nat}
    (walk : g.Walk scope.origin.index (scope.origin.index :: after) p)
    (horigin : scope.origin.index ∉ after) (hafter : ∀ n ∈ after, ∃ d ∈ scope.region, d.block = ⟨n⟩)
    (hd : d ∈ scope.region) (edge : d.block.index ∈ g.succ p)
    (hclean : scope.entersDirty isReachable (scope.dirt isReachable).exits d = false) :
    scope.originDirty = false ∧ ∀ e ∈ scope.region, e.block.index ∈ after → e.hasCall = false := by
  generalize hnodes : scope.origin.index :: after = nodes at walk
  induction walk generalizing after d with
  | start =>
    obtain rfl : after = [] := by simpa using hnodes
    have hpred := List.any_eq_false.mp hclean _ (S.preds d hd _ edge (.inl rfl))
    simpa using hpred
  | @step nodes q p walk edge' ih =>
    obtain ⟨after', rfl, hnodes'⟩ : ∃ after', after = after' ++ [p] ∧
        scope.origin.index :: after' = nodes := by
      cases nodes with
      | nil => exact absurd rfl walk.ne_nil
      | cons first rest =>
        cases hnodes
        exact ⟨rest, rfl, rfl⟩
    obtain ⟨e, he, hep⟩ := hafter p (by simp)
    have hne : (⟨p⟩ : BlockId) ≠ scope.origin := fun h => horigin (by simp [← h])
    have hpred := List.any_eq_false.mp hclean _ (S.preds d hd _ edge (.inr ⟨e, he, hep⟩))
    have hany : scope.region.any (·.block = ⟨p⟩) := List.any_eq_true.mpr ⟨e, he, by simpa using hep⟩
    rw [if_neg hne, if_pos hany, decide_eq_true_iff, ← hep] at hpred
    -- the last block is clean at its end, hence clean where it starts and free of calls
    have hexits := (mem_dirt_iff S.nodup he).2.not.mp hpred
    rw [not_or, Bool.not_eq_true, Bool.not_eq_true] at hexits
    obtain ⟨hdirty, hrest⟩ :=
      ih (fun h => horigin (by simp [h])) (fun n hn => hafter n (by simp [hn]))
      he (by rw [hep]; exact edge') hexits.1 hnodes'
    refine ⟨hdirty, fun e' he' hmem => ?_⟩
    rcases List.mem_append.mp hmem with hmem | hmem
    · exact hrest e' he' hmem
    · have heq : e'.block = e.block := by
        rw [hep, ← List.mem_singleton.mp hmem]
      obtain rfl := List.inj_on_of_nodup_map S.nodup he' he heq
      exact hexits.2

end CheckScope

namespace Function

variable {f g : Function} {a c : ValueId} {b o : BlockId} {source : Operand} {opaqueCalls : Bool}
  {tier : Tier} {inst : Instruction}

/-! ### Coverage in terms of walks -/

/-- Does an instruction end what a check vouches for? A call does, if calls matter. -/
def mayFree (f : Function) (opaqueCalls : Bool) (id : ValueId) : Bool := opaqueCalls && f.isCall id

/-- No call that matters lies between an instruction of a block `o` and the start of a block `b`, on
any way that does not come back to `o`. -/
def ClearTo (f : Function) (opaqueCalls : Bool) (o : BlockId) (c : ValueId) (b : BlockId) : Prop :=
  ∀ after q, f.flowGraph.Walk o.index (o.index :: after) q → b.index ∈ f.flowGraph.succ q →
    o.index ∉ after → (∀ x ∈ f.programInstsAfter o c, f.mayFree opaqueCalls x = false) ∧
      ∀ n ∈ after, ∀ x ∈ f.programInsts ⟨n⟩, f.mayFree opaqueCalls x = false

/-- Where the accesses stand that a check at an instruction of a block `o` covers: further down in
the block, or in a block that `o` strictly dominates, without a call that matters in between. -/
inductive Covers (f : Function) (opaqueCalls : Bool) (o : BlockId) (c a : ValueId) : Tier → Prop
  | block {front mid rest} : f.programInsts o = front ++ c :: (mid ++ a :: rest) →
      (∀ x ∈ mid, f.mayFree opaqueCalls x = false) → Covers f opaqueCalls o c a .block
  | function {b front rest} : f.StrictlyDominates o b → f.ClearTo opaqueCalls o c b →
      f.programInsts b = front ++ a :: rest → (∀ x ∈ front, f.mayFree opaqueCalls x = false) →
      Covers f opaqueCalls o c a .function

theorem any_mayFree :
    (opaqueCalls && insts.any f.isCall) = false ↔ ∀ x ∈ insts, f.mayFree opaqueCalls x = false := by
  cases opaqueCalls <;> simp [mayFree]

/-- The accesses found before the next call are those that no call precedes. -/
theorem mem_beforeCall_iff (haccess : g.accessesSource source a) :
    a ∈ g.beforeCall opaqueCalls insts ↔
      ∃ front rest, insts = front ++ a :: rest ∧ ∀ x ∈ front, g.mayFree opaqueCalls x = false := by
  -- an access is not a call, so it does not end the search itself
  have hcall : g.mayFree opaqueCalls a = false := by
    rw [accessesSource] at haccess
    rw [mayFree, isCall]
    cases hkind : g.kind? a with
    | none => simp
    | some kind => cases kind <;> simp_all [InstKind.accessedPointer?, InstKind.isCall]
  rw [beforeCall]
  constructor
  · intro hmem
    obtain ⟨front, rest, hfront⟩ := List.append_of_mem hmem
    refine ⟨front, rest ++ insts.dropWhile fun id => !(opaqueCalls && g.isCall id), ?_, ?_⟩
    · rw [← List.cons_append, ← List.append_assoc, ← hfront, List.takeWhile_append_dropWhile]
    · intro x hx
      have hfree := List.mem_takeWhile_imp (hfront ▸ List.mem_append_left _ hx)
      rwa [Bool.not_eq_true'] at hfree
  · rintro ⟨front, rest, rfl, hfront⟩
    rw [List.takeWhile_append_of_pos fun x hx => Bool.not_eq_true' _ ▸ hfront x hx,
      List.takeWhile_cons_of_pos (Bool.not_eq_true' _ ▸ hcall)]
    simp

theorem exists_mem_of_searchedInBlock (h : a ∈ g.searchedInBlock opaqueCalls c) :
    ∃ b, a ∈ g.programInsts b := by
  rw [searchedInBlock] at h
  split at h
  · have h := (List.takeWhile_sublist _).subset h
    exact ⟨_, ((List.tail_sublist _).trans (List.dropWhile_sublist _)).subset h⟩
  · cases h

theorem exists_mem_of_searchedInDominated
    (h : g.searchedInDominated? tree opaqueCalls c = some insts) (ha : a ∈ insts) :
    ∃ b, a ∈ g.programInsts b := by
  rw [searchedInDominated?] at h
  split at h
  · simp only [Option.bind_eq_bind, Option.bind_eq_some_iff, Option.pure_def,
      Option.some.injEq] at h
    obtain ⟨_, -, rfl⟩ := h
    obtain ⟨b, -, ha⟩ := List.mem_flatMap.mp ha
    exact ⟨b, (List.takeWhile_sublist _).subset ha⟩
  · cases h
    cases ha

/-! ### Coverage in the block -/

theorem programInstsAfter_eq (T : f.Tidy) {front rest : List ValueId}
    (hsplit : f.programInsts o = front ++ c :: rest) : f.programInstsAfter o c = rest := by
  have hnodup : (front ++ c :: rest).Nodup := hsplit ▸ (T.nodup o).filter _
  rw [programInstsAfter, hsplit, List.dropWhile_append_of_pos]
  · simp
  · grind

section

variable {t : RoutineTable} {p : Routine → Prop} (T : f.Tidy) (G : f.Grows t p g)
  (hc : c ∈ f.programInsts o)

include T G

private theorem isCall_grown (ha : a ∈ f.programInsts b) : g.isCall a = f.isCall a := by
  rw [isCall, isCall, kind?_congr (G.value?_eq (T.index_lt (List.mem_of_mem_filter ha)))]

theorem mayFree_grown (ha : a ∈ f.programInsts b) :
    g.mayFree opaqueCalls a = f.mayFree opaqueCalls a := by
  rw [mayFree, mayFree, isCall_grown T G ha]

theorem programInstsAfter_grown : g.programInstsAfter o c = f.programInstsAfter o c := by
  rw [programInstsAfter, programInstsAfter, G.programInsts_eq T]

theorem mem_beforeCall_grown (haccess : g.accessesSource source a) (front : List ValueId)
    (hinsts : f.programInsts b = front ++ insts) : a ∈ g.beforeCall opaqueCalls insts ↔
      ∃ front rest, insts = front ++ a :: rest ∧ ∀ x ∈ front, f.mayFree opaqueCalls x = false := by
  rw [mem_beforeCall_iff haccess]
  refine exists_congr fun mid => exists_congr fun rest =>
    and_congr_right fun hsplit => forall₂_congr fun x hx => ?_
  rw [mayFree_grown T G (b := b) (by simp [hinsts, hsplit, hx])]

include hc

theorem inst?_grown : g.inst? c = f.inst? c :=
  inst?_congr (G.value?_eq (T.index_lt (List.mem_of_mem_filter hc)))

theorem mem_searchedInBlock_iff (hinst : f.inst? c = some inst) (hhome : inst.block = o)
    (haccess : g.accessesSource source a) :
    a ∈ g.searchedInBlock opaqueCalls c ↔ f.Covers opaqueCalls o c a .block := by
  obtain ⟨front, rest, hsplit⟩ := List.append_of_mem hc
  have hcut : f.programInsts o = (front ++ [c]) ++ rest := by simp [hsplit]
  rw [searchedInBlock, inst?_grown T G hc, hinst]
  simp only [hhome, programInstsAfter_grown T G, programInstsAfter_eq T hsplit]
  rw [mem_beforeCall_grown T G haccess _ hcut]
  refine ⟨?_, fun h => ?_⟩
  · rintro ⟨mid, rest', rfl, hmid⟩
    exact .block hsplit hmid
  · cases h with
    | @block front' mid rest' hsplit' hmid =>
      refine ⟨mid, rest', ?_, hmid⟩
      rw [← programInstsAfter_eq T hsplit, programInstsAfter_eq T hsplit']

/-! ### Coverage in dominated blocks -/

/-- The first block is strictly dominated by none, so growth leaves the ways out of the block of a
check and of the blocks it strictly dominates alone. -/
theorem successors_grown (hq : q = o ∨ f.StrictlyDominates o q) :
    g.successors q = f.successors q := by
  rcases G.successors_eq T q with h | ⟨hentry, hnone, -⟩
  · exact h
  · rcases hq with rfl | ⟨hne, -, -, hdom⟩
    · simp [hnone] at hc
    · have hmem := hdom [0] (hentry ▸ .start)
      cases o
      cases q
      simp_all

theorem reaches_grown (walk : f.flowGraph.Walk o.index nodes n)
    (hnodes : ∀ m ∈ nodes, (⟨m⟩ : BlockId) = o ∨ f.StrictlyDominates o ⟨m⟩) :
    g.flowGraph.Reaches o.index n := by
  induction walk with
  | start => exact .refl _ _
  | @step nodes q n walk edge ih =>
    refine (ih fun m hm => hnodes m (List.mem_append_left _ hm)).step ?_
    have hq := hnodes q (List.mem_append_left _ walk.last_mem)
    rw [mem_succ_flowGraph] at edge ⊢
    rwa [successors_grown T G hc hq]

omit T G hc in
/-- On a way to a block that `o` strictly dominates, what comes after the last visit to `o` is
strictly dominated by it as well. -/
theorem StrictlyDominates.of_walk (hdom : f.StrictlyDominates o b) {q : Nat}
    (walk : f.flowGraph.Walk o.index (o.index :: after) q) (edge : b.index ∈ f.flowGraph.succ q)
    (hnot : o.index ∉ after) (hn : n ∈ after) : f.StrictlyDominates o ⟨n⟩ := by
  obtain ⟨hne, ho, -, hdom⟩ := hdom
  have hindex : o.index ≠ b.index := fun h => hne (BlockId.ext h)
  refine ⟨?_, ho, ho.trans (walk.reaches_of_mem (.tail _ hn)), ?_⟩
  · rintro rfl
    exact hnot hn
  · exact Digraph.Dominates.of_walk hdom (walk.step edge) (by simp [hnot, hindex])
      (List.mem_append_left _ hn)

omit T G hc in
/-- A walk to a block that another strictly dominates, cut at the last visit to the other. -/
theorem StrictlyDominates.split_walk (hdom : f.StrictlyDominates o b)
    (walk : f.flowGraph.Walk 0 nodes b.index) :
    ∃ before after q, nodes = before ++ o.index :: (after ++ [b.index]) ∧
      f.flowGraph.Walk o.index (o.index :: after) q ∧ b.index ∈ f.flowGraph.succ q ∧
      o.index ∉ after := by
  obtain ⟨hne, -, -, hdom⟩ := hdom
  obtain ⟨before, after, rfl, hnot, -, hrest⟩ := walk.split_last (hdom nodes walk)
  have hindex : o.index ≠ b.index := fun h => hne (BlockId.ext h)
  obtain ⟨after, q, rfl, hwalk, edge⟩ := hrest.cons_cases hindex
  exact ⟨before, after, q, rfl, hwalk, edge, fun h => hnot (List.mem_append_left _ h)⟩

omit T G hc in
theorem checkScope?_eq_some (hscope : g.checkScope? tree opaqueCalls o c = some scope) :
    ∃ nodes, g.flowGraph.bfs o.index = some nodes ∧ scope.origin = o ∧
      scope.originDirty = (opaqueCalls && (g.programInstsAfter o c).any g.isCall) ∧
      scope.region = (nodes.filter (tree.strictlyDominates o.index)).map fun n =>
        ⟨⟨n⟩, g.predecessors ⟨n⟩, opaqueCalls && (g.programInsts ⟨n⟩).any g.isCall⟩ := by
  simp only [checkScope?, Option.bind_eq_bind, Option.bind_eq_some_iff, Option.pure_def,
    Option.some.injEq] at hscope
  obtain ⟨nodes, hnodes, rfl⟩ := hscope
  exact ⟨nodes, hnodes, rfl, rfl, by simp⟩

omit hc in
/-- The origin of a scope is dirty if a call that matters follows the check in its block. -/
theorem originDirty_eq_false_iff (hscope : g.checkScope? tree opaqueCalls o c = some scope) :
    scope.originDirty = false ↔ ∀ x ∈ f.programInstsAfter o c, f.mayFree opaqueCalls x = false := by
  obtain ⟨_, -, -, hdirty, -⟩ := checkScope?_eq_some hscope
  rw [hdirty, any_mayFree, programInstsAfter_grown T G]
  refine forall₂_congr fun x hx => ?_
  have hsub := (List.tail_sublist _).trans (List.dropWhile_sublist (l := f.programInsts o) (· ≠ c))
  rw [mayFree_grown T G (hsub.subset hx)]

section

variable (htree : f.dominators? = some tree)
  (hscope : g.checkScope? tree opaqueCalls o c = some scope)

include htree hscope

omit T in
theorem mem_region :
    d ∈ scope.region ↔ f.StrictlyDominates o d.block ∧ g.flowGraph.Reaches o.index d.block.index ∧
      d = ⟨d.block, g.predecessors d.block,
        opaqueCalls && (g.programInsts d.block).any g.isCall⟩ := by
  obtain ⟨nodes, hnodes, -, -, hregion⟩ := checkScope?_eq_some hscope
  have ho : o.index < f.blocks.size := index_lt_of_mem_instsOf (List.mem_filter.mp hc).1
  have hstart : o.index < g.flowGraph.size := by
    rw [flowGraph, G.size_blocks]
    exact ho
  have hdom : ∀ n, tree.strictlyDominates o.index n ↔ f.StrictlyDominates o ⟨n⟩ := fun n =>
    strictlyDominates_iff (b := ⟨n⟩) (by omega) htree
  rw [hregion, List.mem_map]
  constructor
  · rintro ⟨n, hn, rfl⟩
    obtain ⟨hmem, hn⟩ := List.mem_filter.mp hn
    exact ⟨(hdom n).mp hn, (Digraph.mem_bfs_iff hstart hnodes).mp hmem, rfl⟩
  · rintro ⟨hd, hreach, heq⟩
    refine ⟨d.block.index, List.mem_filter.mpr ⟨?_, (hdom _).mpr hd⟩, heq.symm⟩
    exact (Digraph.mem_bfs_iff hstart hnodes).mpr hreach

/-- The region of a check shows all blocks that the block of the check strictly dominates. -/
theorem exists_mem_region (hdom : f.StrictlyDominates o b) : ∃ d ∈ scope.region, d.block = b := by
  obtain ⟨nodes, walk⟩ := hdom.2.2.1
  obtain ⟨before, after, q, -, hwalk, edge, hnot⟩ := hdom.split_walk walk
  let d : DominatedBlock :=
    ⟨b, g.predecessors b, opaqueCalls && (g.programInsts b).any g.isCall⟩
  refine ⟨d, (mem_region G hc htree hscope).mpr ⟨hdom, ?_, rfl⟩, rfl⟩
  refine reaches_grown T G hc (hwalk.step edge) fun m hm => ?_
  simp only [List.cons_append, List.mem_cons, List.mem_append, List.not_mem_nil, or_false] at hm
  rcases hm with rfl | hm | rfl
  · exact .inl rfl
  · exact .inr (hdom.of_walk hwalk edge hnot hm)
  · exact .inr hdom

theorem hasCall_eq_false_iff (hd : d ∈ scope.region) :
    d.hasCall = false ↔ ∀ x ∈ f.programInsts d.block, f.mayFree opaqueCalls x = false := by
  rw [((mem_region G hc htree hscope).mp hd).2.2, any_mayFree, G.programInsts_eq T]
  exact forall₂_congr fun x hx => by rw [mayFree_grown T G hx]

/-- The ways into a block of the region. What leads there lies in the region as well, or is the
block of the check, or is never reached. -/
theorem mem_preds_iff (hd : d ∈ scope.region) (hq : q = o ∨ f.StrictlyDominates o q) :
    q ∈ d.preds ↔ d.block ∈ f.successors q := by
  rw [((mem_region G hc htree hscope).mp hd).2.2, mem_predecessors_iff,
    successors_grown T G hc hq]

omit T htree in
theorem nodup_region : (scope.region.map DominatedBlock.block).Nodup := by
  obtain ⟨nodes, hnodes, -, -, hregion⟩ := checkScope?_eq_some hscope
  have hstart : o.index < g.flowGraph.size := by
    rw [flowGraph, G.size_blocks]
    exact index_lt_of_mem_instsOf (List.mem_filter.mp hc).1
  have hnodup := (Digraph.nodup_bfs hstart hnodes).filter (tree.strictlyDominates o.index)
  rw [hregion, List.map_map]
  exact hnodup.map fun m n h => by simpa using h

theorem checkScope?_shows : scope.Shows f.flowGraph := by
  obtain ⟨_, -, horigin, -⟩ := checkScope?_eq_some hscope
  constructor
  · exact nodup_region G hc hscope
  · intro d hd q edge hq
    refine (mem_preds_iff T G hc htree hscope hd ?_).mpr (mem_succ_flowGraph.mp edge)
    rcases hq with rfl | ⟨e, he, hblock⟩
    · exact .inl (by rw [horigin])
    · exact .inr (hblock ▸ ((mem_region G hc htree hscope).mp he).1)

/-- A reachable predecessor of a block of the region is the block of the check or in the region. -/
theorem eq_or_strictlyDominates_of_mem_preds (hd : d ∈ scope.region) (hq : q ∈ d.preds)
    (hreachable : f.Reachable q) : q = o ∨ f.StrictlyDominates o q := by
  obtain ⟨⟨hne, ho, -, hdom⟩, -, heq⟩ := (mem_region G hc htree hscope).mp hd
  rw [heq, mem_predecessors_iff] at hq
  have hedge : d.block ∈ f.successors q := by grind [Grows.successors_eq]
  have hindex : o.index ≠ d.block.index := fun h => hne (BlockId.ext h)
  by_cases hqo : q = o
  · exact .inl hqo
  · exact .inr ⟨Ne.symm hqo, ho, hreachable, hdom.pred hindex (mem_succ_flowGraph.mpr hedge)⟩

/-- A block is entered without a call since the check if so it is on every walk, as long as no block
that no call precedes is taken for dirty. -/
theorem entersDirty_of_clearTo (hclean : ∀ b, f.ClearTo opaqueCalls o c b ∧
      (∀ x ∈ f.programInsts b, f.mayFree opaqueCalls x = false) → b ∉ exits)
    (hd : d ∈ scope.region) (hclear : f.ClearTo opaqueCalls o c d.block) :
    scope.entersDirty (fun block => tree.isReachable block.index) exits d = false := by
  obtain ⟨_, -, horigin, -⟩ := checkScope?_eq_some hscope
  have hblocks : 0 < f.blocks.size :=
    Nat.zero_lt_of_lt (index_lt_of_mem_instsOf (List.mem_of_mem_filter hc))
  rw [CheckScope.entersDirty, List.any_eq_false]
  intro q hq
  rw [horigin, Bool.not_eq_true]
  by_cases hqo : q = o
  · -- the way from the check itself
    subst hqo
    rw [if_pos rfl, originDirty_eq_false_iff T G hscope]
    have hedge := (mem_preds_iff T G hc htree hscope hd (.inl rfl)).mp hq
    exact (hclear [] _ .start (mem_succ_flowGraph.mpr hedge) (by simp)).1
  rw [if_neg hqo]
  split
  · -- a way through a block of the region, which no call precedes either
    rename_i hany
    obtain ⟨e, he, hblock⟩ := List.any_eq_true.mp hany
    obtain rfl : e.block = q := by simpa using hblock
    have hdom := ((mem_region G hc htree hscope).mp he).1
    have hedge := mem_succ_flowGraph.mpr
      ((mem_preds_iff T G hc htree hscope hd (.inr hdom)).mp hq)
    have hon : ∀ {after p}, f.flowGraph.Walk o.index (o.index :: after) p →
        e.block.index ∈ f.flowGraph.succ p → o.index ∉ after →
        (∀ x ∈ f.programInstsAfter o c, f.mayFree opaqueCalls x = false) ∧
          ∀ n ∈ after ++ [e.block.index], ∀ x ∈ f.programInsts ⟨n⟩,
            f.mayFree opaqueCalls x = false := by
      intro after p walk edge hnot
      have hindex : o.index ≠ e.block.index := fun h => hdom.1 (BlockId.ext h)
      exact hclear (after ++ [e.block.index]) _ (walk.step edge) hedge (by simp [hnot, hindex])
    rw [decide_eq_false_iff_not]
    refine hclean e.block ⟨fun after p walk edge hnot => ?_, ?_⟩
    · obtain ⟨hafter, hnodes⟩ := hon walk edge hnot
      exact ⟨hafter, fun n hn => hnodes n (List.mem_append_left _ hn)⟩
    · obtain ⟨nodes, walk⟩ := hdom.2.2.1
      obtain ⟨_, after, p, -, hwalk, edge, hnot⟩ := hdom.split_walk walk
      exact (hon hwalk edge hnot).2 _ (by simp)
  · -- a reachable predecessor would be dominated by the check, and so be in the region
    rename_i hnone
    rw [Bool.eq_false_iff]
    intro hreachable
    have hdom := (eq_or_strictlyDominates_of_mem_preds T G hc htree hscope hd hq
      ((isReachable_iff hblocks htree).mp hreachable)).resolve_left hqo
    obtain ⟨e, he, hblock⟩ := exists_mem_region T G hc htree hscope hdom
    exact hnone (List.any_eq_true.mpr ⟨e, he, by simpa using hblock⟩)

/-- A block of the region is found to be entered without a call since the check exactly if so it is
on every walk. -/
theorem not_mem_entries_dirt_iff (hd : d ∈ scope.region) :
    d.block ∉ (scope.dirt fun block => tree.isReachable block.index).entries ↔
      f.ClearTo opaqueCalls o c d.block := by
  have hnodup := nodup_region G hc hscope
  rw [(CheckScope.mem_dirt_iff hnodup hd).1, Bool.not_eq_true]
  obtain ⟨_, -, horigin, -⟩ := checkScope?_eq_some hscope
  constructor
  · intro hclean after q walk edge hnot
    have hdom := ((mem_region G hc htree hscope).mp hd).1
    have hregion : ∀ n ∈ after, ∃ e ∈ scope.region, e.block = ⟨n⟩ := fun n hn =>
      exists_mem_region T G hc htree hscope (hdom.of_walk walk edge hnot hn)
    obtain ⟨hdirty, hfree⟩ := CheckScope.free_of_calls (checkScope?_shows T G hc htree hscope)
      (horigin ▸ walk) (horigin ▸ hnot) hregion hd edge hclean
    refine ⟨(originDirty_eq_false_iff T G hscope).mp hdirty, fun n hn => ?_⟩
    obtain ⟨e, he, hblock⟩ := hregion n hn
    rw [← hblock]
    exact (hasCall_eq_false_iff T G hc htree hscope he).mp (hfree e he (by rw [hblock]; exact hn))
  · intro hclear
    -- no visit finds the blocks dirty that no call precedes, as long as none of them is dirty
    refine entersDirty_of_clearTo T G hc htree hscope (fun b hgood => ?_) hd hclear
    refine CheckScope.not_mem_exits_dirt (fun b => f.ClearTo opaqueCalls o c b ∧
      ∀ x ∈ f.programInsts b, f.mayFree opaqueCalls x = false)
        (fun exits hclean e he hgood => ?_) hgood
    exact ⟨(hasCall_eq_false_iff T G hc htree hscope he).mpr hgood.2,
      entersDirty_of_clearTo T G hc htree hscope hclean he hgood.1⟩

end

theorem mem_searchedInDominated_iff (htree : f.dominators? = some tree)
    (hinst : f.inst? c = some inst) (hhome : inst.block = o)
    (hsearched : g.searchedInDominated? tree opaqueCalls c = some insts)
    (haccess : g.accessesSource source a) : a ∈ insts ↔ f.Covers opaqueCalls o c a .function := by
  rw [searchedInDominated?, inst?_grown T G hc, hinst] at hsearched
  simp only [hhome, Option.bind_eq_bind, Option.bind_eq_some_iff, Option.pure_def,
    Option.some.injEq] at hsearched
  obtain ⟨scope, hscope, rfl⟩ := hsearched
  simp only [CheckScope.cleanEntries, List.mem_flatMap, List.mem_map, List.mem_filter,
    decide_eq_true_iff, G.programInsts_eq T]
  constructor
  · rintro ⟨_, ⟨⟨d, hd, rfl⟩, hclean⟩, ha⟩
    obtain ⟨front, rest, hsplit, hfront⟩ := (mem_beforeCall_grown T G haccess [] rfl).mp ha
    exact .function ((mem_region G hc htree hscope).mp hd).1
      ((not_mem_entries_dirt_iff T G hc htree hscope hd).mp hclean) hsplit hfront
  · intro hcovers
    cases hcovers with
    | function hdom hclear hsplit hfront =>
      obtain ⟨d, hd, rfl⟩ := exists_mem_region T G hc htree hscope hdom
      exact ⟨d.block, ⟨⟨d, hd, rfl⟩, (not_mem_entries_dirt_iff T G hc htree hscope hd).mpr hclear⟩,
        (mem_beforeCall_grown T G haccess [] rfl).mpr ⟨_, _, hsplit, hfront⟩⟩

end

/-! ### What coverage is worth -/

/-- What is executed on a walk through blocks before an instruction of the last one. -/
def executedBefore (f : Function) (nodes : List Nat) (b : BlockId) (a : ValueId) : List ValueId :=
  nodes.dropLast.flatMap (fun n => f.instsOf ⟨n⟩) ++ (f.instsOf b).takeWhile (· ≠ a)

/-- An instruction vouches for an object: it was executed, and since then neither a call of the
program nor the definition of the object was. -/
def Vouches (f : Function) (source : Operand) (c : ValueId) (executed : List ValueId) : Prop :=
  ∃ before after, executed = before ++ c :: after ∧
    (∀ x ∈ after, f.isProgramInst x → f.isCall x = false) ∧ ∀ x, source = .value x → x ∉ after

/-- A selection from a list is cut where the list is. -/
theorem split_of_filter {keep : ValueId → Bool} {l front rest : List ValueId}
    (h : l.filter keep = front ++ a :: rest) :
    ∃ front' rest', l = front' ++ a :: rest' ∧ front'.filter keep = front ∧
      rest'.filter keep = rest := by
  obtain ⟨l₁, l₂, rfl, hfront, hrest⟩ := List.filter_eq_append_iff.mp h
  obtain ⟨skipped, rest', rfl, hskipped, -, hrest⟩ := List.filter_eq_cons_iff.mp hrest
  refine ⟨l₁ ++ skipped, rest', by simp, ?_, hrest⟩
  rw [List.filter_append, hfront, List.filter_eq_nil_iff.mpr hskipped, List.append_nil]

/-- If calls matter, a check vouches for what it covers. -/
theorem Covers.vouches (h : f.Covers true o c a tier) (V : f.Valid) (hc : c ∈ f.programInsts o)
    (hsource : ∀ x, source = .value x → f.Before x c) (hab : a ∈ f.instsOf b)
    (walk : f.flowGraph.Walk 0 nodes b.index) :
    f.Vouches source c (f.executedBefore nodes b a) := by
  -- instructions that were inserted do not count, so only those of the program are looked at
  have hcall : ∀ {insts : List ValueId}, (∀ x ∈ insts.filter f.isProgramInst,
      f.mayFree true x = false) → ∀ x ∈ insts, f.isProgramInst x → f.isCall x = false :=
    fun h x hx hprogram => by simpa [mayFree] using h x (List.mem_filter.mpr ⟨hx, hprogram⟩)
  cases h with
  | block hsplit hmid =>
    obtain ⟨front, rest, hinsts, -, hrest⟩ := split_of_filter hsplit
    obtain ⟨mid, rest, rfl, rfl, -⟩ := split_of_filter hrest
    obtain rfl := V.tidy.block_eq hab (show a ∈ f.instsOf o by simp [hinsts])
    have hinsts' : f.instsOf b = (front ++ c :: mid) ++ a :: rest := by simp [hinsts]
    refine ⟨nodes.dropLast.flatMap (fun n => f.instsOf ⟨n⟩) ++ front, mid, ?_, hcall hmid,
      fun x e hx => ?_⟩
    · rw [executedBefore, V.tidy.takeWhile_ne hinsts', List.append_assoc]
    · exact (hsource x e).not_mem_rest V.tidy hinsts (List.mem_append_left _ hx)
  | function hdom hclear hsplit hfront =>
    obtain ⟨front, rest, hinsts, rfl, -⟩ := split_of_filter hsplit
    obtain rfl := V.tidy.block_eq hab (by rw [hinsts]; simp)
    -- the walk is cut at its last visit to the block of the check
    obtain ⟨before, after, q, rfl, hwalk, edge, hnot⟩ := hdom.split_walk walk
    have hco := List.mem_of_mem_filter hc
    obtain ⟨front', rest', hcut⟩ := List.append_of_mem hc
    obtain ⟨front', rest', hinsts', -, rfl⟩ := split_of_filter hcut
    obtain ⟨horigin, hfree⟩ := hclear after q hwalk edge hnot
    rw [programInstsAfter_eq V.tidy hcut] at horigin
    refine ⟨before.flatMap (fun n => f.instsOf ⟨n⟩) ++ front',
      rest' ++ after.flatMap (fun n => f.instsOf ⟨n⟩) ++ front, ?_, fun x hx hprogram => ?_,
      fun x e hx => ?_⟩
    · have hlast : before ++ o.index :: (after ++ [b.index]) =
          (before ++ o.index :: after) ++ [b.index] := by simp
      rw [executedBefore, V.tidy.takeWhile_ne hinsts, hlast, List.dropLast_concat,
        List.flatMap_append, List.flatMap_cons, hinsts']
      simp
    · rcases List.mem_append.mp hx with hx | hx
      · rcases List.mem_append.mp hx with hx | hx
        · exact hcall horigin x hx hprogram
        · obtain ⟨n, hn, hx⟩ := List.mem_flatMap.mp hx
          exact hcall (hfree n hn) x hx hprogram
      · exact hcall hfront x hx hprogram
    · -- nor is the object computed again: not in the rest of the block, nor in what it dominates
      rcases List.mem_append.mp hx with hx | hx
      · rcases List.mem_append.mp hx with hx | hx
        · exact (hsource x e).not_mem_rest V.tidy hinsts' hx
        · obtain ⟨n, hn, hx⟩ := List.mem_flatMap.mp hx
          exact (hsource x e).not_mem_dominated V.tidy hco (hdom.of_walk hwalk edge hnot hn) hx
      · exact (hsource x e).not_mem_dominated V.tidy hco hdom (by simp [hinsts, hx])

end Function

end PointerGuard
