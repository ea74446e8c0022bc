import PointerGuard.Proofs.ModuleAccounts

/-!
# The life of a frame key

The stack allocations of a function share one key, taken when the function is entered and released
when it returns. That it is taken once is read off the accounts; it is released once as there is a
release right before each return, and there are no more releases than returns. So it is in every
function of a module to whose stack allocations control may come.
-/

namespace PointerGuard

open Edit PointerGuard.Function

variable {b : BlockId} {x y ret pair lock : ValueId} {r : Routine} {env : Env} {f g : Function}
  {store : Store} {s : Weaving} {returns : List ValueId} {frameKey : Temporal} {nodes : List Nat}

/-! ### Ways to a return -/

/-- Every node of a walk but the last leads on. -/
theorem Digraph.Walk.exists_front {g : Digraph} {a b : Nat} (walk : g.Walk a nodes b) :
    ∃ front, nodes = front ++ [b] ∧ ∀ n ∈ front, g.succ n ≠ [] := by
  induction walk with
  | start => exact ⟨[], rfl, by simp⟩
  | step walk edge ih => grind

namespace Function

variable {phi : ValueId}

theorem returnOf?_eq_some_iff : f.returnOf? b = some ret ↔
    f.terminator? b = some ret ∧ ∃ kind, f.kind? ret = some kind ∧ kind.isReturn := by
  rw [returnOf?]
  simp only [Option.bind_eq_bind, Option.bind_eq_some_iff, Option.ite_none_right_eq_some]
  constructor
  · simp
  · simp

theorem mem_instsOf_of_returnOf? (h : f.returnOf? b = some ret) : ret ∈ f.instsOf b :=
  List.mem_of_getLast? (terminator?_eq_some_iff.mp (returnOf?_eq_some_iff.mp h).1).1

theorem successors_eq_nil_of_returnOf? (h : f.returnOf? b = some ret) : f.successors b = [] := by
  obtain ⟨hlast, kind, hkind, hreturn⟩ := returnOf?_eq_some_iff.mp h
  rw [successors, hlast, Option.bind_some, hkind]
  cases kind <;> first | rfl | cases hreturn

theorem gapBefore_withEdges {edges : List (Operand × BlockId)} :
    (f.withEdges phi edges).gapBefore b y = f.gapBefore b y := by
  simp only [gapBefore, instsOf_withEdges, isProgramInst_withEdges]

theorem mem_instsOf_of_mem_gapBefore (hx : x ∈ f.gapBefore b y) : x ∈ f.instsOf b :=
  List.takeWhile_subset _ ((List.rtakeWhile_suffix ..).subset hx)

/-- Between what stands in the gap before a return and the return there is nothing of the
program. -/
theorem exists_split_of_mem_gapBefore (T : f.Tidy) (hret : f.terminator? b = some ret)
    (hx : x ∈ f.gapBefore b ret) : ∃ front gap, f.instsOf b = front ++ x :: (gap ++ [ret]) ∧
      ∀ y ∈ gap, f.isProgramInst y = false := by
  obtain ⟨before, hsplit⟩ : ∃ before, f.instsOf b = before ++ [ret] :=
    ⟨_, (List.dropLast_append_getLast? _ (terminator?_eq_some_iff.mp hret).1).symm⟩
  obtain ⟨hgap, front, rfl, -⟩ := gapBefore_split T hsplit
  obtain ⟨left, right, hcut⟩ := List.append_of_mem hx
  refine ⟨front ++ left, right, ?_, fun y hy => hgap y (by simp [hcut, hy])⟩
  rw [hsplit, hcut]
  simp

/-- What is early stands behind nothing of the program. -/
theorem Early.exists_split (h : f.Early x) (T : f.Tidy) : ∃ front rest,
    f.instsOf ⟨0⟩ = front ++ x :: rest ∧ ∀ y ∈ front, f.isProgramInst y = false := by
  obtain ⟨front, rest, hsplit⟩ := List.append_of_mem h.mem
  refine ⟨front, rest, hsplit, fun y hy => Bool.eq_false_iff.mpr fun hprogram => ?_⟩
  have hnext := h.next y hprogram (by rw [hsplit]; exact List.mem_append_left _ hy)
  exact hnext.asymm T ((Precedes.of_append T hsplit).mpr hy)

end Function

/-! ### The calls that are inserted -/

def Env.addedCalls (env : Env) (f g : Function) (r : Routine) : List ValueId :=
  (f.insertions g).filter fun x => (g.kind? x).any (env.calls (· ∈ [r]))

theorem Env.length_addedCalls :
    (env.addedCalls f g r).length = env.callsAdded f g [r] :=
  List.countP_eq_length_filter.symm

theorem Env.mem_addedCalls {args : List Operand} (hmem : x ∈ g.instsOf b)
    (hnew : f.values.size ≤ x.index) (hkind : g.kind? x = some (env.callOf r args)) :
    x ∈ env.addedCalls f g r := by
  have hlisted : x ∈ g.listing := mem_listing.mpr ⟨b, hmem⟩
  refine List.mem_filter.mpr ⟨List.mem_filter.mpr ⟨hlisted, decide_eq_true hnew⟩, ?_⟩
  have hcalls : env.calls (· ∈ [r]) (env.callOf r args) := calls_callOf (by simp)
  rw [hkind, Option.any_some, hcalls]

namespace Weaving

variable {p : Routine → Prop} {own : ValueId → Prop} {t u w : Weaving} {ret' : ValueId}
  {created recorded : List BlockId}

/-! ### Taking the key -/

/-- A key and a lock are parts of what one call at the top of the function has returned. -/
structure Opens (env : Env) (f g : Function) (frameKey : Temporal) (pair key lock : ValueId) :
    Prop where
  eq : frameKey = ⟨.value key, .value lock⟩
  early : g.Early pair
  new : f.values.size ≤ pair.index
  kind_pair : g.kind? pair = some (env.callOf .stackAllocation [])
  kind_key : g.kind? key = some (.extract (.value pair) Routine.frameKeyField)
  kind_lock : g.kind? lock = some (.extract (.value pair) Routine.frameLockField)

theorem Opens.of_kept {key : ValueId} (O : Opens env f s.func frameKey pair key lock)
    (K : Kept own s u) : Opens env f u.func frameKey pair key lock :=
  ⟨O.eq, K.early O.early, O.new, K.nonphi O.kind_pair rfl, K.nonphi O.kind_key rfl,
    K.nonphi O.kind_lock rfl⟩

theorem Steps.exists_opens (S : Steps env p f own s u) (W : s.Woven env p f)
    (hnone : s.frameKey = none) (hkey : u.frameKey = some frameKey) :
    ∃ pair key lock, Opens env f u.func frameKey pair key lock := by
  induction S with
  | refl =>
    rw [hnone] at hkey
    cases hkey
  | @tail t u S step ih =>
    have K := step.kept (Steps.woven S W)
    have carry (h : t.frameKey = some frameKey) :
        ∃ pair key lock, Opens env f u.func frameKey pair key lock := by
      obtain ⟨pair, key, lock, O⟩ := ih h
      exact ⟨pair, key, lock, O.of_kept K⟩
    cases step with
    | frame _ hpair hlock hkey' =>
      obtain ⟨pair, rfl, ⟨hearly, hnew⟩, hpair⟩ := hpair
      obtain ⟨lock, hlock, -, hlock'⟩ := hlock
      obtain ⟨key, hkey', -, hkey''⟩ := hkey'
      cases hkey
      refine ⟨pair, key, lock, ?_, hearly, hnew, hpair, hkey'', hlock'⟩
      rw [← hkey', ← hlock]
    | other _ _ _ hframe => exact carry (hframe ▸ hkey)
    | splice => exact carry hkey
    | shadows => exact carry hkey
    | edge => exact carry hkey
    | associate => exact carry hkey
    | lock => exact carry hkey

/-! ### Releasing the key -/

/-- The key is released in the gap before a return. -/
structure Releases (env : Env) (f g : Function) (key : Operand) (ret x : ValueId) : Prop where
  place : ∃ b, f.returnOf? b = some ret ∧ ret ∈ g.instsOf b ∧ x ∈ g.gapBefore b ret
  new : f.values.size ≤ x.index
  kind : g.kind? x = some (env.callOf .stackDeallocation [key])

theorem Steps.mem_gapBefore (S : Steps env p f own s u) (W : s.Woven env p f)
    (hy : y ∈ s.func.instsOf b) (hx : x ∈ s.func.gapBefore b y) :
    y ∈ u.func.instsOf b ∧ x ∈ u.func.gapBefore b y := by
  induction S with
  | refl => exact ⟨hy, hx⟩
  | tail S step ih =>
    obtain ⟨hy, hx⟩ := ih
    have T := (Steps.woven S W).func_tidy
    rcases step.grows with G | ⟨shadow, incoming, edges, -, -, hkind, hfunc⟩
    · exact ⟨(G.instsOf_sublist T b).subset hy, G.mem_gapBefore T hy hx⟩
    · rw [hfunc, instsOf_withEdges, gapBefore_withEdges]
      exact ⟨hy, hx⟩

theorem Releases.of_steps {key : Operand} (R : Releases env f s.func key ret x)
    (S : Steps env p f own s u) (W : s.Woven env p f) : Releases env f u.func key ret x := by
  obtain ⟨b, hret, hmem, hgap⟩ := R.place
  exact ⟨⟨b, hret, S.mem_gapBefore W hmem hgap⟩, R.new, (S.kept W).nonphi R.kind rfl⟩

theorem Woven.returnOf?_eq_some (W : s.Woven env p f) (h : s.func.returnOf? b = some ret) :
    f.returnOf? b = some ret := by
  obtain ⟨hlast, kind, hkind, hreturn⟩ := returnOf?_eq_some_iff.mp h
  rcases W.grows.terminator?_eq W.tidy b with hsame | ⟨-, -, hnone⟩
  · rw [hsame] at hlast
    rw [W.grows.kind?_terminator W.tidy hlast] at hkind
    exact returnOf?_eq_some_iff.mpr ⟨hlast, kind, hkind, hreturn⟩
  · rw [hnone] at hlast
    cases hlast

/-- Insertions keep all returns if the first block has an instruction of the program. -/
theorem Woven.returnOf?_eq (W : s.Woven env p f) (hentry : f.programInsts ⟨0⟩ ≠ []) (b : BlockId) :
    s.func.returnOf? b = f.returnOf? b := by
  rcases W.grows.terminator?_eq W.tidy b with hsame | ⟨hzero, hnone, -⟩
  · refine Option.ext fun ret => ⟨W.returnOf?_eq_some, fun h => ?_⟩
    obtain ⟨hlast, kind, hkind, hreturn⟩ := returnOf?_eq_some_iff.mp h
    exact returnOf?_eq_some_iff.mpr ⟨hsame ▸ hlast, kind, W.grows.kind?_eq hkind, hreturn⟩
  · obtain rfl : b = ⟨0⟩ := BlockId.ext hzero
    exact absurd hnone hentry

/-- The key is released before all returns control may come to. -/
theorem releases_of_releaseFrameKey (W : s.Woven env p f) (hp : p .stackDeallocation)
    (hkey : s.frameKey = some frameKey) (h : (releaseFrameKey env).Runs s ⟨⟩ t) :
    ∀ ret ∈ s.releasedAt env, ∃ x, Releases env f t.func frameKey.key ret x := by
  rw [releaseFrameKey, runs_get_bind] at h
  simp only [hkey] at h
  have loop := h.forM_induction (fun rest t => Steps env p f Never s t ∧
    (∀ ret ∈ rest, ret ∈ s.releasedAt env) ∧ ∀ ret ∈ s.releasedAt env,
      ret ∈ rest ∨ ∃ x, Releases env f t.func frameKey.key ret x) ⟨.refl, ?_, ?_⟩ ?_
  · grind
  · intro ret hret
    rwa [releasedAt, hkey]
  · intro ret hret
    rw [releasedAt, hkey] at hret
    exact .inl hret
  · rintro ret rest t t' ⟨S, hrest, hdone⟩ hbody
    have hret := hrest ret (.head _)
    rw [releasedAt, hkey] at hret
    obtain ⟨b, -, hreturnOf⟩ := List.mem_filterMap.mp hret
    obtain ⟨kind, hkind, hreturn⟩ := returnOf?_eq_some hreturnOf
    have Wt := S.woven W
    have K := S.kept W
    obtain ⟨S', -, c, x, hmem, hgap, hnew, hkind'⟩ := releaseBefore_steps Wt hp
      (K.kind? hkind fun _ => not_false) hreturn (K.frameKey hkey) hbody
    refine ⟨S.trans S', fun ret hret => hrest ret (.tail _ hret), fun ret' hret' => ?_⟩
    rcases hdone ret' hret' with hleft | ⟨x', R⟩
    · rcases List.mem_cons.mp hleft with rfl | hleft
      · have hlisted : ret' ∈ s.func.instsOf b :=
          mem_instsOf_of_returnOf? hreturnOf
        have G := Steps.grows (S.trans S')
        obtain rfl := (S'.woven Wt).func_tidy.block_eq
          ((G.instsOf_sublist W.func_tidy b).subset hlisted) hmem
        exact .inr ⟨x, ⟨b, W.returnOf?_eq_some hreturnOf, hmem, hgap⟩, hnew, hkind'⟩
      · exact .inl hleft
    · exact .inr ⟨x', R.of_steps S' Wt⟩

/-! ### Counting -/

namespace Course

variable (C : Course env f store s created recorded w t) (hdistinct : env.Distinct)

include C hdistinct

/-- Calls that take and release keys are as many as there are returns to be guarded and keys. What
the frame is charged for its key is up to us if no allocation asks for it. -/
theorem callsAdded_framed (routines : List Routine) (price : ℤ)
    (hroutines : ∀ r ∈ routines, r = .stackAllocation ∨ r = .stackDeallocation)
    (hframe : ∀ x ∈ created.flatMap f.programInsts, f.isAlloca x →
      (if .stackAllocation ∈ routines then 1 else 0) = price) :
    (env.callsAdded f s.func routines : ℤ) =
      (w.releasedAt env).length * (if .stackDeallocation ∈ routines then 1 else 0) +
        if s.frameKey.isSome then price else 0 := by
  let prices : Prices := { Prices.ofCalls routines with frame := price }
  have hnone : ∀ r : Routine, r ≠ .stackAllocation → r ≠ .stackDeallocation → r ∉ routines :=
    fun r h h' hr => (hroutines r hr).elim h h'
  have fair : prices.Fair := by
    refine ⟨?_, ?_, fun r hr => if_neg (hnone r ?_ ?_)⟩
    · simp [prices, Prices.ofCalls, hnone]
    · simp [prices, Prices.ofCalls, hnone]
    · rintro rfl
      cases hr
    · rintro rfl
      cases hr
  have hcreation : env.creationDue prices f = fun _ => 0 := funext fun id => by
    simp [Env.creationDue, prices, Prices.ofCalls]
  have hrecord : Env.recordDue prices f = fun _ => 0 := funext fun id => by
    simp [Env.recordDue, prices, Prices.ofCalls]
  have hreport : s.report.worth prices = 0 := by
    simp [FunctionReport.worth, prices, Prices.ofCalls, hnone]
  have hsum := C.worth prices fair hframe
  have hworth := sum_worthOf (g := s.func) (q := env.calls (· ∈ routines))
    (fun _ => Env.price_ofCalls hdistinct) (f.insertions s.func)
  rw [hcreation, hrecord, List.sum_map_zero, List.sum_map_zero, hreport, add_zero, zero_add,
    zero_add] at hsum
  rw [Env.callsAdded, ← hworth]
  exact hsum

theorem frameKey_eq_none (hnone : ∀ x ∈ created.flatMap f.programInsts, f.isAlloca x = false) :
    s.frameKey = none := by
  have hcount := C.callsAdded_framed hdistinct [] 1 (by simp) fun x hx h =>
    absurd h (by simp [hnone x hx])
  have hcalls : env.callsAdded f s.func [] = 0 := by
    refine List.countP_eq_zero.mpr fun x _ => ?_
    cases s.func.kind? x with
    | none => simp
    | some kind => cases kind <;> simp [Env.calls]
  rw [hcalls] at hcount
  cases hkey : s.frameKey with
  | none => rfl
  | some frameKey => simp [hkey] at hcount

/-- A key is taken once if the frame has one. -/
theorem length_addedCalls_stackAllocation :
    (env.addedCalls f s.func .stackAllocation).length = if s.frameKey.isSome then 1 else 0 := by
  have hcount := C.callsAdded_framed hdistinct [.stackAllocation] 1 (by simp) (by simp)
  rw [Env.length_addedCalls]
  cases hkey : s.frameKey <;> simpa [hkey] using hcount

theorem length_addedCalls_stackDeallocation :
    (env.addedCalls f s.func .stackDeallocation).length = (w.releasedAt env).length := by
  have hcount := C.callsAdded_framed hdistinct [.stackDeallocation] 0 (by simp) (by simp)
  rw [Env.length_addedCalls]
  simpa using hcount

end Course

section Releases

variable {key : Operand} (T : g.Tidy)

theorem Releases.exists_block (R : Releases env f g key ret x) :
    ∃ b, f.returnOf? b = some ret ∧ x ∈ g.instsOf b := by
  obtain ⟨b, hret, -, hgap⟩ := R.place
  exact ⟨b, hret, mem_instsOf_of_mem_gapBefore hgap⟩

theorem Releases.mem_addedCalls (R : Releases env f g key ret x) :
    x ∈ env.addedCalls f g .stackDeallocation := by
  obtain ⟨b, -, hmem⟩ := R.exists_block
  exact Env.mem_addedCalls hmem R.new R.kind

include T

theorem Releases.ret_eq (R : Releases env f g key ret x) (R' : Releases env f g key ret' x) :
    ret = ret' := by
  obtain ⟨b, hret, hmem⟩ := R.exists_block
  obtain ⟨b', hret', hmem'⟩ := R'.exists_block
  rw [T.block_eq hmem' hmem, hret] at hret'
  exact Option.some.inj hret'

/-- If there are no more releases than returns, there is one before each return and no other. -/
theorem exists_release (hnodup : returns.Nodup)
    (hreleases : ∀ ret ∈ returns, ∃ x, Releases env f g key ret x)
    (hcount : (env.addedCalls f g .stackDeallocation).length = returns.length) :
    ∃ release : ValueId → ValueId, (∀ ret ∈ returns, Releases env f g key ret (release ret)) ∧
      ∀ x ∈ env.addedCalls f g .stackDeallocation, ∃ ret ∈ returns, x = release ret := by
  choose! release hrelease using hreleases
  refine ⟨release, hrelease, fun x hx => ?_⟩
  have hinj : (returns.map release).Nodup := List.Nodup.map_on
    (fun ret hret ret' hret' heq => (hrelease ret hret).ret_eq T (heq ▸ hrelease ret' hret')) hnodup
  have hsub : returns.map release ⊆ env.addedCalls f g .stackDeallocation := by
    grind [Releases.mem_addedCalls]
  have hperm := (List.subperm_of_subset hinj hsub).perm_of_length_le (by simp [hcount])
  obtain ⟨ret, hret, rfl⟩ := List.mem_map.mp (hperm.mem_iff.mpr hx)
  exact ⟨ret, hret, rfl⟩

end Releases

end Weaving

/-! ### Functions with a key -/

/-- What is inserted into a function whose stack allocations have a key. One call at the top of the
function takes the key, and the records of all allocations hold it. On every walk to a return the
key is released once, and nothing of the program comes between the release and the return. Nothing
of the program but the return is executed behind a release. -/
structure KeysFrame (env : Env) (f g : Function) (store : Store) (pair key lock : ValueId) :
    Prop where
  taken : env.addedCalls f g .stackAllocation = [pair]
  early : ∃ front rest, g.instsOf ⟨0⟩ = front ++ pair :: rest ∧
    ∀ y ∈ front, g.isProgramInst y = false
  kind_pair : g.kind? pair = some (env.callOf .stackAllocation [])
  kind_key : g.kind? key = some (.extract (.value pair) Routine.frameKeyField)
  kind_lock : g.kind? lock = some (.extract (.value pair) Routine.frameLockField)
  allocas : ∀ b x, f.Reachable b → x ∈ f.programInsts b → f.isAlloca x →
    ∃ md, store.lookup x = some md ∧ md.temporal = some ⟨.value key, .value lock⟩
  released : ∀ nodes b ret, g.flowGraph.Walk 0 nodes b.index → g.returnOf? b = some ret →
    ∃ front x gap, g.executed nodes = front ++ x :: (gap ++ [ret]) ∧
      x ∈ env.addedCalls f g .stackDeallocation ∧
      g.kind? x = some (env.callOf .stackDeallocation [.value key]) ∧
      (∀ y ∈ front ++ gap, y ∉ env.addedCalls f g .stackDeallocation) ∧
      ∀ y ∈ gap, g.isProgramInst y = false
  last : ∀ nodes b front x rest, g.flowGraph.Walk 0 nodes b.index →
    g.executed nodes = front ++ x :: rest → x ∈ env.addedCalls f g .stackDeallocation →
    ∀ y ∈ rest, g.isProgramInst y → g.returnOf? b = some y

section Walks

open Weaving

variable {key : Operand} {release : ValueId → ValueId} (T : g.Tidy)
  (hreturn : ∀ b, g.returnOf? b = f.returnOf? b)
  (hrelease : ∀ ret ∈ returns, Releases env f g key ret (release ret))
  (honly : ∀ x ∈ env.addedCalls f g .stackDeallocation, ∃ ret ∈ returns, x = release ret)

include T hreturn hrelease honly

/-- A release stands in a block that ends with its return, and nothing of the program comes between
them. -/
theorem exists_split_of_release (hmem : x ∈ g.instsOf b)
    (hx : x ∈ env.addedCalls f g .stackDeallocation) :
    ∃ ret front gap, g.returnOf? b = some ret ∧ x = release ret ∧
      g.instsOf b = front ++ x :: (gap ++ [ret]) ∧ ∀ y ∈ gap, g.isProgramInst y = false := by
  obtain ⟨ret, hret, rfl⟩ := honly x hx
  obtain ⟨c, hreturnOf, -, hgap⟩ := (hrelease ret hret).place
  obtain rfl := T.block_eq (mem_instsOf_of_mem_gapBefore hgap) hmem
  rw [← hreturn c] at hreturnOf
  obtain ⟨front, gap, hsplit, hnone⟩ := exists_split_of_mem_gapBefore T
    (returnOf?_eq_some_iff.mp hreturnOf).1 hgap
  exact ⟨ret, front, gap, hreturnOf, rfl, hsplit, hnone⟩

theorem not_mem_executed (hleads : ∀ n ∈ nodes, g.flowGraph.succ n ≠ [])
    (hx : x ∈ env.addedCalls f g .stackDeallocation) : x ∉ g.executed nodes := by
  intro hmem
  obtain ⟨n, hn, hmem⟩ := mem_executed.mp hmem
  obtain ⟨ret, -, -, hreturnOf, -⟩ := exists_split_of_release T hreturn hrelease honly hmem hx
  refine hleads n hn (List.eq_nil_iff_forall_not_mem.mpr fun m hm => ?_)
  rw [mem_succ_flowGraph, successors_eq_nil_of_returnOf? hreturnOf] at hm
  cases hm

/-- A walk to a return releases the key once, at its end. -/
theorem released_of_walk (walk : g.flowGraph.Walk 0 nodes b.index)
    (hreturnOf : g.returnOf? b = some ret) (hret : ret ∈ returns) :
    ∃ front x gap, g.executed nodes = front ++ x :: (gap ++ [ret]) ∧
      x ∈ env.addedCalls f g .stackDeallocation ∧
      g.kind? x = some (env.callOf .stackDeallocation [key]) ∧
      (∀ y ∈ front ++ gap, y ∉ env.addedCalls f g .stackDeallocation) ∧
      ∀ y ∈ gap, g.isProgramInst y = false := by
  have R := hrelease ret hret
  have hx := R.mem_addedCalls
  have hmem : release ret ∈ g.instsOf b := by
    obtain ⟨c, hret', hlisted, hgap⟩ := R.place
    obtain rfl := T.block_eq hlisted (mem_instsOf_of_returnOf? hreturnOf)
    exact mem_instsOf_of_mem_gapBefore hgap
  obtain ⟨before, rfl, hleads⟩ := walk.exists_front
  obtain ⟨ret', front, gap, hreturnOf', -, hsplit, hgap⟩ :=
    exists_split_of_release T hreturn hrelease honly hmem hx
  cases hreturnOf.symm.trans hreturnOf'
  refine ⟨g.executed before ++ front, release ret, gap, ?_, hx, R.kind, fun y hy hy' => ?_, hgap⟩
  · simp [executed, hsplit]
  · -- a release in the same block is the same one, and it stands there once
    have hlist : y ∈ front ++ gap := by
      rw [List.append_assoc] at hy
      exact (List.mem_append.mp hy).resolve_left
        (not_mem_executed T hreturn hrelease honly hleads hy')
    have hmem' : y ∈ g.instsOf b := by grind
    obtain ⟨ret', -, -, hreturnOf', rfl, -⟩ :=
      exists_split_of_release T hreturn hrelease honly hmem' hy'
    cases hreturnOf.symm.trans hreturnOf'
    have hnodup := hsplit ▸ T.nodup b
    rw [List.nodup_middle, List.nodup_cons] at hnodup
    exact hnodup.1 (by rcases List.mem_append.mp hlist with h | h <;> simp [h])

/-- Nothing of the program but a return comes behind a release. -/
theorem return_of_release {front rest : List ValueId} (walk : g.flowGraph.Walk 0 nodes b.index)
    (hexecuted : g.executed nodes = front ++ x :: rest)
    (hx : x ∈ env.addedCalls f g .stackDeallocation) (hy : y ∈ rest)
    (hprogram : g.isProgramInst y) : g.returnOf? b = some y := by
  obtain ⟨before, rfl, hleads⟩ := walk.exists_front
  have hbefore := not_mem_executed T hreturn hrelease honly hleads hx
  have hblock : g.executed (before ++ [b.index]) = g.executed before ++ g.instsOf b := by
    simp [executed]
  have hmem : x ∈ g.instsOf b := by
    have : x ∈ g.executed before ++ g.instsOf b := by rw [← hblock, hexecuted]; simp
    exact (List.mem_append.mp this).resolve_left hbefore
  obtain ⟨ret, front', gap, hreturnOf, -, hsplit, hgap⟩ :=
    exists_split_of_release T hreturn hrelease honly hmem hx
  have hnodup := hsplit ▸ T.nodup b
  rw [List.nodup_middle, List.nodup_cons, List.mem_append, not_or] at hnodup
  -- the release is executed once, so what follows it is what follows it in its block
  have hcut : (g.executed before ++ front') ++ x :: (gap ++ [ret]) = front ++ x :: rest := by
    rw [← hexecuted, hblock, hsplit, List.append_assoc]
  obtain ⟨-, -, rfl⟩ := (List.append_cons_inj_of_notMem
    (by simpa using ⟨hbefore, hnodup.1.1⟩) hnodup.1.2).mp hcut
  rcases List.mem_append.mp hy with hy | hy
  · rw [hgap y hy] at hprogram
    cases hprogram
  · rwa [List.mem_singleton.mp hy]

end Walks

namespace Env.Passes

open Weaving

variable (P : env.Passes f store s) (hf : f.WellFormed)
  (hfresh : ∀ v : ValueId, v.func = f.id → store.lookup v = none) (hdistinct : env.Distinct)
  (hsize : 0 < f.blocks.size)

include P hf hfresh hdistinct

theorem exists_course : ∃ created recorded w t, Course env f store s created recorded w t ∧
    Steps env Any f Any (.start f store) w ∧
    Steps env Any f Any w t ∧
    Steps env Any f Any t s := by
  obtain ⟨created, recorded, w, t, C⟩ :=
    P.piped.course hf.tidy hf.paramsFirst hfresh hdistinct (P.grows hf.tidy)
  have W : Woven env Any f (.start f store) := ⟨hf.tidy, .refl⟩
  have S := C.creating.gathers.steps
  refine ⟨created, recorded, w, t, C, Steps.mono (fun _ _ => trivial) S,
    (releaseFrameKey_steps (Steps.woven S W) trivial C.release).1.any,
    (Steps.mono (fun _ _ => trivial) C.steps).trans ?_⟩
  exact (P.steps_checks hf fun v hv => hfresh v hv.func_eq).1.any

include hsize

/-- If control comes to no stack allocation, no key is taken and none is released. -/
theorem addedCalls_eq_nil
    (hnone : ∀ b x, f.Reachable b → x ∈ f.programInsts b → f.isAlloca x = false) :
    env.addedCalls f s.func .stackAllocation = [] ∧
      env.addedCalls f s.func .stackDeallocation = [] := by
  obtain ⟨created, recorded, w, t, C, Sw, St, Ss⟩ := P.exists_course hf hfresh hdistinct
  have W : Woven env Any f (.start f store) := ⟨hf.tidy, .refl⟩
  have hkey : s.frameKey = none := by
    refine C.frameKey_eq_none hdistinct fun x hx => ?_
    obtain ⟨b, hb, hx⟩ := List.mem_flatMap.mp hx
    exact hnone b x (C.creates.reachable hf.tidy hsize hb) hx
  have hkey' : w.frameKey = none := by
    by_contra hsome
    obtain ⟨frameKey, hsome⟩ := Option.ne_none_iff_exists'.mp hsome
    have hlater := (Steps.kept (St.trans Ss) (Sw.woven W)).frameKey hsome
    rw [hkey] at hlater
    cases hlater
  constructor
  · rw [← List.length_eq_zero_iff, C.length_addedCalls_stackAllocation hdistinct, hkey]
    rfl
  · rw [← List.length_eq_zero_iff, C.length_addedCalls_stackDeallocation hdistinct,
      releasedAt, hkey']
    rfl

/-- If control comes to a stack allocation, the frame has a key, which is taken once and released
once on every walk. -/
theorem exists_keysFrame (htemporal : env.config.temporalSafety)
    (hentry : f.successors ⟨0⟩ ≠ [] → f.programInsts ⟨0⟩ ≠ []) (hb : f.Reachable b)
    (hx : x ∈ f.programInsts b) (halloca : f.isAlloca x) :
    ∃ pair key lock, KeysFrame env f s.func s.store pair key lock := by
  obtain ⟨created, recorded, w, t, C, Sw, St, Ss⟩ := P.exists_course hf hfresh hdistinct
  have W : Woven env Any f (.start f store) := ⟨hf.tidy, .refl⟩
  have Ww := Sw.woven W
  have Wt := St.woven Ww
  have Ws := Ss.woven Wt
  have hstart := hb.program_ne_nil hentry hx
  have hholds : ∀ b x, f.Reachable b → x ∈ f.programInsts b → f.isAlloca x → w.HoldsFrameKey x := by
    intro b x hb hx halloca
    have hmem : x ∈ created.flatMap f.programInsts :=
      List.mem_flatMap.mpr ⟨b, (C.creates.mem_iff hf.tidy hsize hentry).mpr hb, hx⟩
    exact (C.creating.keyed htemporal x hmem halloca).resolve_left List.not_mem_nil
  obtain ⟨-, frameKey, -, -, hkey⟩ := hholds b x hb hx halloca
  have hkey' := (Steps.kept (St.trans Ss) Ww).frameKey hkey
  obtain ⟨pair, key, lock, O⟩ := Steps.exists_opens (Sw.trans (St.trans Ss)) W rfl hkey'
  obtain rfl := O.eq
  -- the returns that are guarded are those control may come to
  have hguarded : w.releasedAt env =
      (f.blockIds.filter env.isReachable).filterMap f.returnOf? := by
    have hreturns : w.func.returnOf? = f.returnOf? := funext fun b => Ww.returnOf?_eq hstart b
    have hblocks : w.func.blockIds = f.blockIds := by
      rw [blockIds, blockIds, Ww.grows.size_blocks]
    simp only [releasedAt, hkey, hreturns, hblocks]
  have hnodup : (w.releasedAt env).Nodup := by
    rw [hguarded]
    refine List.Nodup.filterMap (fun b b' ret hb hb' => ?_) (nodup_blockIds.filter _)
    exact hf.tidy.block_eq (mem_instsOf_of_returnOf? hb)
      (mem_instsOf_of_returnOf? hb')
  have hmem : ∀ b ret, s.func.Reachable b → s.func.returnOf? b = some ret →
      ret ∈ w.releasedAt env := by
    intro b ret hb hret
    have hret := Ws.returnOf?_eq_some hret
    have hb : env.isReachable b := (isReachable_iff hsize P.dominators).mpr
      (Steps.reachable (Sw.trans (St.trans Ss)) W hb)
    rw [hguarded, List.mem_filterMap]
    exact ⟨b, List.mem_filter.mpr ⟨mem_blockIds.mpr
      (index_lt_of_mem_instsOf (mem_instsOf_of_returnOf? hret)), hb⟩, hret⟩
  obtain ⟨release, hrelease, honly⟩ := exists_release Ws.func_tidy hnodup
    (fun ret hret => (releases_of_releaseFrameKey Ww trivial hkey C.release ret hret).imp
      fun _ R => R.of_steps Ss Wt) (C.length_addedCalls_stackDeallocation hdistinct)
  have hreturn : ∀ b, s.func.returnOf? b = f.returnOf? b := Ws.returnOf?_eq hstart
  refine ⟨pair, key, lock, ?_, O.early.exists_split Ws.func_tidy, O.kind_pair,
    O.kind_key, O.kind_lock,
    fun b x hb hx halloca => ?_, fun nodes b ret walk hret => ?_,
      fun nodes b front x rest walk => ?_⟩
  · have hone := C.length_addedCalls_stackAllocation hdistinct
    rw [hkey'] at hone
    obtain ⟨y, hy⟩ := List.length_eq_one_iff.mp hone
    have hpair := Env.mem_addedCalls O.early.mem O.new O.kind_pair
    rw [hy, List.mem_singleton] at hpair
    rw [hy, hpair]
  · obtain ⟨md, temporal, hlookup, htemporal, hsome⟩ :=
      (hholds b x hb hx halloca).of_kept (Steps.kept (St.trans Ss) Ww)
    rw [hkey'] at hsome
    exact ⟨md, hlookup, htemporal.trans hsome.symm⟩
  · exact released_of_walk Ws.func_tidy hreturn hrelease honly walk hret
      (hmem b ret walk.reaches hret)
  · intro hexecuted hx y hy hprogram
    exact return_of_release Ws.func_tidy hreturn hrelease honly walk hexecuted hx hy hprogram

end Env.Passes

/-- Control may come to a stack allocation of the program. -/
def Function.Allocates (f : Function) : Prop :=
  ∃ b x, f.Reachable b ∧ x ∈ f.programInsts b ∧ f.isAlloca x

/-! ### Functions that have been prepared -/

section

variable {f' : Function} {key : ValueId} {change : Operand → Operand} (R : f.Readdresses change f')
  (C : Operand.Readdressing change) (T : f.Tidy)

include R

theorem Function.Readdresses.addedCalls_eq :
    env.addedCalls f' g r = env.addedCalls f g r := by
  rw [Env.addedCalls, Env.addedCalls, insertions, insertions, R.size_eq]

include C T

/-- Where control comes to an allocation does not depend on which functions the instructions
name. -/
theorem Function.Readdresses.reachable_alloca_iff :
    (f'.Reachable b ∧ x ∈ f'.programInsts b ∧ f'.isAlloca x) ↔
      f.Reachable b ∧ x ∈ f.programInsts b ∧ f.isAlloca x := by
  rw [reachable_congr (R.flowGraph_eq T), R.programInsts_eq T]
  exact and_congr_right fun _ => and_congr_right fun hx => by rw [(R.counts_eq C T hx).1]

theorem KeysFrame.readdresses (K : KeysFrame env f' g store pair key lock) :
    KeysFrame env f g store pair key lock := by
  have hcalls : env.addedCalls f' g = env.addedCalls f g := funext fun _ => R.addedCalls_eq
  refine ⟨hcalls ▸ K.taken, K.early, K.kind_pair, K.kind_key, K.kind_lock,
    fun b x hb hx halloca => ?_, hcalls ▸ K.released, hcalls ▸ K.last⟩
  obtain ⟨hb, hx, halloca⟩ := (R.reachable_alloca_iff C T).mpr ⟨hb, hx, halloca⟩
  exact K.allocas b x hb hx halloca

end

namespace Module

variable {m m' : Module} {config : Config}

/-- A function that allocates on the stack takes one key and releases it on every way to a return;
one that does not allocate does neither. -/
theorem instrument_keysFrames {report : Report} (hm : m.WellFormed)
    (htemporal : config.temporalSafety)
    (h : (instrument config).Runs m report m') :
    ∃ prepared u, (prepare config).Runs m prepared u ∧
      ∀ id ∈ m.targets, ∃ f, m.function id = .ok f ∧
        ∃ turn : Turn config u.interface prepared.routines u m' id,
          (f.Allocates → (f.successors ⟨0⟩ ≠ [] → f.programInsts ⟨0⟩ ≠ []) →
            ∃ pair key lock, KeysFrame turn.env f turn.s.func turn.s.store pair key lock) ∧
          (¬f.Allocates → turn.env.addedCalls f turn.s.func .stackAllocation = [] ∧
            turn.env.addedCalls f turn.s.func .stackDeallocation = []) := by
  obtain ⟨prepared, u, hprepare, hturns⟩ := exists_turns hm h
  refine ⟨prepared, u, hprepare, fun id hid => ?_⟩
  obtain ⟨-, -, f, hf, turn, -, S⟩ := exists_of_forall₂ hturns.flip hid
  obtain ⟨change, C, R⟩ := S.readdresses
  refine ⟨f, hf, turn, ?_, fun hnone => ?_⟩
  · rintro ⟨b, x, halloca⟩ hentry
    obtain ⟨hb, hx, halloca⟩ := (R.reachable_alloca_iff C S.tidy).mpr halloca
    rw [← R.successors_eq S.tidy, ← R.programInsts_eq S.tidy] at hentry
    obtain ⟨pair, key, lock, K⟩ := turn.passes.exists_keysFrame S.wellFormed S.fresh S.distinct
      S.nonempty htemporal hentry hb hx halloca
    exact ⟨pair, key, lock, K.readdresses R C S.tidy⟩
  · rw [← R.addedCalls_eq, ← R.addedCalls_eq]
    refine turn.passes.addedCalls_eq_nil S.wellFormed S.fresh S.distinct S.nonempty
      fun b x hb hx => Bool.eq_false_iff.mpr fun halloca => hnone ⟨b, x, ?_⟩
    exact (R.reachable_alloca_iff C S.tidy).mp ⟨hb, hx, halloca⟩

end Module

/-! ### An allocation on one of two ways, and one that is not seen -/

/-- Write to the stack on one of two ways to a return. -/
def scratchFunction : Function := .ofBlocks ⟨0⟩ "scratch" ⟨.void, [.int 1], false⟩ [
  [(.void, .branch (val 0) ⟨1⟩ ⟨2⟩)],
  [(.ptr (.int 32), .alloca (.int 32) none), (.void, .store (.const (.int 32 1)) (val 2)),
    (.void, .ret none)],
  [(.void, .ret none)]]

def scratchModule : Module :=
  { name := "scratch", width := .bits64, functions := #[scratchFunction] }

/-- The key is released on both ways. -/
theorem instrument_keysFrames_scratchModule :
    scratchModule.WellFormed ∧ scratchFunction.Allocates ∧ scratchFunction.programInsts ⟨0⟩ ≠ [] ∧
      ∃ report m', (Module.instrument {}).Runs scratchModule report m' ∧
        ∃ prepared u, (Module.prepare {}).Runs scratchModule prepared u ∧
          ∃ turn : Module.Turn {} u.interface prepared.routines u m' ⟨0⟩, ∃ pair key lock,
            KeysFrame turn.env scratchFunction turn.s.func turn.s.store pair key lock := by
  have hm : scratchModule.WellFormed := by decide +kernel
  have hblocks : scratchFunction.bfsBlocks? = some [⟨0⟩, ⟨1⟩, ⟨2⟩] := by decide +kernel
  have halloca : scratchFunction.Allocates := ⟨⟨1⟩, ⟨⟨0⟩, 2⟩,
    (Function.mem_bfsBlocks_iff (by decide) hblocks).mp (by decide), by decide, by decide⟩
  have hentry : scratchFunction.programInsts ⟨0⟩ ≠ [] := by decide
  obtain ⟨report, hrun⟩ : ∃ report, (Module.instrument {}).Runs scratchModule report _ :=
    Edit.exists_runs (by decide +kernel)
  obtain ⟨prepared, u, hprepare, hturns⟩ := Module.instrument_keysFrames hm rfl hrun
  obtain ⟨f, hf, turn, hkeys, -⟩ := hturns ⟨0⟩ (by decide +kernel)
  obtain rfl : scratchFunction = f := Except.ok.inj hf
  exact ⟨hm, halloca, hentry, report, _, hrun, prepared, u, hprepare, turn,
    hkeys halloca fun _ => hentry⟩

/-- Allocate on the stack, in a block that is entered by a jump which is not an instruction of the
program. -/
def bypassFunction : Function :=
  (Function.ofBlocks ⟨0⟩ "bypass" ⟨.void, [.ptr (.int 32)], false⟩ [
    [(.void, .jump ⟨1⟩)],
    [(.int 32, .alloca (.int 32) none), (.void, .ret none)]]).withInserted 1

def bypassModule : Module := { name := "bypass", width := .bits64, functions := #[bypassFunction] }

/-- The loads of the parameter's metadata cut the jump off, and no key is taken for the allocation:
no call has the signature of the routine that would give one. -/
theorem instrument_no_key_bypassModule :
    bypassModule.WellFormed ∧ bypassFunction.verify = .ok () ∧ bypassFunction.Allocates ∧
      ∃ report m' g, (Module.instrument { verifyOutput := false }).Runs bypassModule report m' ∧
        m'.function ⟨0⟩ = .ok g ∧
          Routine.stackAllocation.signature .bits64 ∉ g.calledSignatures := by
  have hblocks : bypassFunction.bfsBlocks? = some [⟨0⟩, ⟨1⟩] := by decide +kernel
  have halloca : bypassFunction.Allocates := ⟨⟨1⟩, ⟨⟨0⟩, 2⟩,
    (Function.mem_bfsBlocks_iff (by decide) hblocks).mp (by decide), by decide, by decide⟩
  exact ⟨by decide +kernel, by decide +kernel, halloca,
    Module.exists_runs_instrument (by decide +kernel) (by decide +kernel)⟩

end PointerGuard
