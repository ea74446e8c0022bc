import PointerGuard.Proofs.Failures
import PointerGuard.Proofs.Grounding
import PointerGuard.Proofs.Mediation
import PointerGuard.Proofs.VisitOrder

/-!
# Where faults come from

Three questions may have no answer: which blocks control comes to, where a block branches to one
that is missing; what a pointer is derived from, where a derivation does not end; and how large
something is, where no word can hold the answer. Nothing else leads to a fault. Verification asks
the first one only after it has checked the shape of all blocks, so it never ends in a fault.
-/

namespace PointerGuard

open Edit Outcome PointerGuard.Function

variable {f g : Function} {tree : DominatorTree} {store : Store} {cause : Fault} {t : RoutineTable}
  {operand operand' : Operand} {ty : Ty} {objects : GlobalId → Option Ty} {x : ValueId}
  {r? : Option Redirection}

namespace DominatorTree

open PointerGuard.Digraph

/-- A tree is computed in finitely many steps, and answers questions in finitely many steps, none of
which looks up a node that the graph does not have. -/
structure Computes (g : Digraph) (entry : Nat) (t : DominatorTree) : Prop where
  entry_eq : t.entry = entry
  entry_lt : entry < g.size
  search : ∃ below, g.Explores ⟨[entry], []⟩ (g.succ entry).reverse below ∧
    t.reached = (below.order ++ [entry]).reverse
  /-- The nodes that are given a number. -/
  numbered : ∀ n ∈ t.reached, n < g.size
  sweeps : ∃ links,
    Rests g t.reached ((Array.replicate g.size none).setIfInBounds entry (some entry)) links ∧
      t.idom = links.setIfInBounds entry none
  chain : ∀ n, t.isReachable n → t.Ascends n (t.chain n)

/-- The tree of a closed graph is computed without looking up a node that does not exist. -/
theorem exists_computes {g : Digraph} {entry : Nat} (C : g.Closed) (hentry : entry < g.size) :
    ∃ t, compute g entry = some t ∧ Computes g entry t := by
  obtain ⟨t, h⟩ := exists_compute C hentry
  obtain ⟨horder, N, links, ⟨-, hrests⟩, -, -, heq, hidom⟩ := compute_cases hentry C.converse h
  refine ⟨t, h, heq, hentry, exists_explores hentry horder, N.bounded, ⟨links, hrests, hidom⟩, ?_⟩
  intro n hn
  rw [compute_isReachable hentry C.converse h] at hn
  exact (ascends_chain hentry C.converse h hn).1

end DominatorTree

/-! ### Verification -/

namespace Function

/-- Once the shape of all blocks is checked, dominators can be computed. -/
theorem exists_dominators_of_checkShape (hbody : ¬f.isDeclaration) (h : f.checkShape = .ok ()) :
    f.flowGraph.Closed ∧
      ∃ tree, f.dominators? = some tree ∧ DominatorTree.Computes f.flowGraph 0 tree := by
  have C : f.flowGraph.Closed := flowGraph_closed fun a b hb =>
    (checkShape_eq_ok_iff.mp h a (index_lt_of_mem_successors hb)).targets b hb
  have hblocks : 0 < f.flowGraph.size := by
    simpa [isDeclaration, flowGraph, Nat.pos_iff_ne_zero] using hbody
  exact ⟨C, DominatorTree.exists_computes C hblocks⟩

theorem verify_eq_of_checkShape {violation : Violation} (hbody : ¬f.isDeclaration)
    (h : f.checkShape = .error violation) : f.verify = .error (.verification f.name violation) := by
  rw [verify, if_neg hbody, h]
  rfl

theorem verify_eq_of_dominators (hbody : ¬f.isDeclaration) (h : f.checkShape = .ok ())
    (htree : f.dominators? = some tree) :
    f.verify = (f.checkUses tree).mapError (.verification f.name) := by
  rw [verify, if_neg hbody, h, htree]
  rfl

/-- A function that is verified never faults: branches have been looked at before. -/
theorem verify_cases (f : Function) :
    f.verify = .ok () ∨ ∃ violation, f.verify = .error (.verification f.name violation) := by
  by_cases hbody : f.isDeclaration
  · exact .inl (by rw [verify, if_pos hbody]; rfl)
  cases hshape : f.checkShape with
  | error violation => exact .inr ⟨violation, verify_eq_of_checkShape hbody hshape⟩
  | ok _ =>
    obtain ⟨-, tree, htree, -⟩ := exists_dominators_of_checkShape hbody hshape
    rw [verify_eq_of_dominators hbody hshape htree]
    cases f.checkUses tree with
    | error violation => exact .inr ⟨violation, rfl⟩
    | ok _ => exact .inl rfl

/-- Whatever a function looks like, verification passes it or names a rule that it breaks: a rule
about the shape of blocks, or one about uses, for which a dominator tree has been computed without
looking up a block that does not exist. -/
theorem verify_robust (f : Function) :
    (f.verify = .ok () ∨ ∃ violation, f.verify = .error (.verification f.name violation)) ∧
      (f.isDeclaration ∧ f.verify = .ok () ∨
        (∃ violation, f.checkShape = .error violation ∧
          f.verify = .error (.verification f.name violation)) ∨
        f.checkShape = .ok () ∧ f.flowGraph.Closed ∧
          ∃ tree, f.dominators? = some tree ∧ DominatorTree.Computes f.flowGraph 0 tree ∧
            f.verify = (f.checkUses tree).mapError (.verification f.name)) := by
  refine ⟨f.verify_cases, ?_⟩
  by_cases hbody : f.isDeclaration
  · exact .inl ⟨hbody, by rw [verify, if_pos hbody]; rfl⟩
  cases hshape : f.checkShape with
  | error violation =>
    exact .inr (.inl ⟨violation, rfl, verify_eq_of_checkShape hbody hshape⟩)
  | ok _ =>
    obtain ⟨C, tree, htree, hcomputes⟩ := exists_dominators_of_checkShape hbody hshape
    have hverify := verify_eq_of_dominators hbody hshape htree
    exact .inr (.inr ⟨rfl, C, tree, htree, hcomputes, hverify⟩)

end Function

variable {i : Interface} {store' : Store}

namespace Function

/-- Some block branches to one that is missing. -/
def Dangles (f : Function) : Prop := ∃ b target, target ∈ f.successors b ∧
    f.blocks.size ≤ target.index

/-- What a function has that leads to a fault: a branch to a missing block, an access through a
pointer whose derivation does not end in a value that exists, or an access of something too large,
or to an object or over a distance that is too large. What is too large may also have been inserted,
if an operand of the access does not rest on values that exist. -/
def Provokes (f : Function) (i : Interface) : Fault → Prop
  | .danglingEdge => f.Dangles
  | .missingParameter _ => False
  | .cyclicDerivation ptr => ∃ b id kind, id ∈ f.instsOf b ∧ f.kind? id = some kind ∧
      kind.accessedPointer? = some ptr ∧ ¬f.Grounded ptr
  | .oversized ty => Layout.wordSize? i.width ty = none ∧ ∃ b id kind ptr, id ∈ f.instsOf b ∧
      f.kind? id = some kind ∧ kind.accessedPointer? = some ptr ∧ (f.accessType? id kind = some ty ∨
        f.Crosses i.valueType? ptr ty ∨ ∃ operand ∈ kind.operands, ¬f.Grounded operand)

/-- The control flow graph is closed unless some block branches to one that is missing. -/
theorem dangles_of_not_closed (h : ¬f.flowGraph.Closed) : f.Dangles := by
  by_contra hdangles
  refine h (flowGraph_closed fun a b hb => ?_)
  by_contra hlt
  exact hdangles ⟨a, b, hb, Nat.not_lt.mp hlt⟩

theorem dangles_of_bfs {start : Nat} (h : f.flowGraph.bfs start = none) : f.Dangles := by
  refine dangles_of_not_closed fun C => ?_
  obtain ⟨nodes, hnodes⟩ := C.inRange.exists_bfs start
  rw [h] at hnodes
  cases hnodes

theorem dangles_of_dominators (h : f.dominators? = none) : f.Dangles := by
  refine dangles_of_not_closed fun C => ?_
  rcases Nat.eq_zero_or_pos f.blocks.size with hblocks | hblocks
  · simp [dominators?, DominatorTree.compute, flowGraph, hblocks] at h
  · obtain ⟨tree, hcompute⟩ := DominatorTree.exists_compute C hblocks
    rw [dominators?, hcompute] at h
    cases h

/-- A function that has dominators has all blocks that control comes to. -/
theorem index_lt_of_reachable {b : BlockId} (h : f.dominators? = some tree)
    (hblocks : 0 < f.blocks.size) (hb : f.Reachable b) : b.index < f.blocks.size := by
  obtain ⟨-, N, -⟩ := DominatorTree.compute_cases hblocks flowGraph_converse h
  exact N.bounded _ ((N.mem_iff _).mpr hb)

theorem verify_ne_fault : f.verify ≠ .error (.fault cause) := by
  rcases f.verify_cases with h | ⟨violation, h⟩ <;> simp [h]

/-! ### Growth -/

variable {p : Routine → Prop} {ptr : Operand} {kind : InstKind}

theorem Grows.dangles (G : f.Grows t p g) (T : f.Tidy) (h : g.Dangles) : f.Dangles := by
  obtain ⟨b, target, htarget, hmissing⟩ := h
  rcases G.successors_eq T b with heq | ⟨-, -, hnone⟩
  · exact ⟨b, target, heq ▸ htarget, G.size_blocks ▸ hmissing⟩
  · simp [hnone] at htarget

/-- Growth does not change what a grounded operand crosses. -/
theorem Crosses.of_grows (h : g.Crosses objects operand ty) (G : f.Grows t p g)
    (hground : f.Grounded operand) : f.Crosses objects operand ty := by
  have hderived : ∀ {v}, f.Grounded (.value v) → g.derivedFrom? v = f.derivedFrom? v := fun h => by
    rw [derivedFrom?, derivedFrom?, h.kind?_eq G]
  induction h with
  | const hmem => exact .const hmem
  | alloca hkind => exact .alloca (hground.kind?_eq G ▸ hkind)
  | moved hsource htype hpointee =>
    rw [hderived hground] at hsource
    exact .moved hsource ((hground.of_derivedFrom? hsource).operandType_eq G ▸ htype) hpointee
  | derived hsource _ ih =>
    rw [hderived hground] at hsource
    exact .derived hsource (ih (hground.of_derivedFrom? hsource))

/-- A size that is asked for to check an access with grounded operands is asked for by the original
function. -/
theorem Grows.asks (G : f.Grows t p g) (hx : g.value? x = f.value? x)
    (hptr : kind.accessedPointer? = some ptr)
    (hground : ∀ operand ∈ kind.operands, f.Grounded operand)
    (h : g.accessType? x kind = some ty ∨ g.Crosses objects ptr ty) :
    f.accessType? x kind = some ty ∨ f.Crosses objects ptr ty := by
  cases kind with
  | load address =>
    cases hptr
    refine h.imp (fun h => ?_) (·.of_grows G (hground _ (by simp [InstKind.operands])))
    rwa [accessType?, ← valueType?_congr hx]
  | store value address =>
    cases hptr
    refine h.imp (fun h => ?_) (·.of_grows G (hground _ (by simp [InstKind.operands])))
    rw [accessType?_store] at h ⊢
    rwa [← (hground value (by simp [InstKind.operands])).operandType_eq G]
  | _ => cases hptr

end Function

/-! ### The passes -/

/-- If an error is a fault, the function provokes it. -/
def Function.Explains (f : Function) (i : Interface) (e : Error) : Prop :=
  ∀ cause, e = .fault cause → f.Provokes i cause

namespace Weaving

variable {env : Env} {s : Weaving}

/-- A search that fails has come to a missing block, and a pointer that is followed without an end
is not grounded. -/
def provokedRegime (env : Env) (f : Function) : Regime env := { intactRegime env f with
  fails := f.Explains env.interface
  ordinary := by
    rintro _ h cause rfl
    cases h
  search := by
    rintro s start h hsearch _ ⟨⟩
    exact h.woven.grows.dangles h.woven.tidy (dangles_of_bfs hsearch)
  source := by
    rintro s t id kind ptr h ht hid hkind hptr hsource _ ⟨⟩
    obtain ⟨b, hb⟩ := mem_listing.mp hid
    refine ⟨b, id, kind, hb, h.kind?_of_mem_listing hid hkind, hptr, fun hgrounded => ?_⟩
    obtain ⟨source, -, -, hgrown⟩ := hgrounded.source?_eq
    simp [hgrown ht.woven.grows] at hsource
  oversize := by
    rintro s t id kind ptr ty h ht hid hkind hptr hasked hnone _ ⟨⟩
    obtain ⟨b, hb⟩ := mem_listing.mp hid
    refine ⟨hnone, b, id, kind, ptr, hb, h.kind?_of_mem_listing hid hkind, hptr, ?_⟩
    by_cases hgrounded : ∀ operand ∈ kind.operands, f.Grounded operand
    · exact (ht.woven.grows.asks (ht.value?_of_mem_listing hid) hptr hgrounded hasked).imp_right
        .inl
    · exact .inr (.inr (by simpa using hgrounded)) }

theorem pipeline_provoked (env : Env) (T : f.Tidy)
    (h : (env.config.pipeline.mapM (runPass env)).Fails (.start f store) (.fault cause) s) :
    f.Provokes env.interface cause := by
  have hstart : (start f store).Intact env f := intact_start T
  have hpasses := Regime.pipeline (R := provokedRegime env f) (s := .start f store) intact_records
    (Regime.insertChecks trivial) _ hstart
  exact (hpasses.endsIn.of_fails h).2 cause rfl

end Weaving

/-! ### Preparing a function -/

namespace Function

variable {change : Operand → Operand} {flags : FunctionFlags} {name : String}

/-- A derivation that ends still does so if constants on the way are readdressed. -/
theorem Grounded.readdressed (C : Operand.Readdressing change) (hid : g.id = f.id)
    (hhas : ∀ v, f.Has v → g.Has v) (hderived : ∀ x, g.derivedFrom? x = f.derivedFrom? x ∨
      g.derivedFrom? x = (f.derivedFrom? x).map change) (h : f.Grounded operand) :
    g.Grounded operand := by
  induction h with
  | const => exact .const
  | known hforeign => exact .known (by rwa [hid])
  | @origin v hv hnone =>
    refine .origin (hhas v hv) ?_
    rcases hderived v with h | h <;> simp [h, hnone]
  | @derived v operand hsource _ ih =>
    rcases hderived v with h | h
    · exact .derived (h.trans hsource) ih
    · rw [hsource] at h
      refine .derived h ?_
      cases operand with
      | value w => rwa [C.value]
      | const c =>
        obtain ⟨c', hc, -⟩ := C.const c
        rw [hc]
        exact .const

/-- Instructions are what they were, possibly with other operands. -/
def Readdressed (change : Operand → Operand) (f g : Function) : Prop :=
  ∀ x, g.kind? x = f.kind? x ∨ g.kind? x = (f.kind? x).map (·.mapOperands change)

theorem Readdressed.derivedFrom? (R : f.Readdressed change g) (x : ValueId) :
    g.derivedFrom? x = f.derivedFrom? x ∨ g.derivedFrom? x = (f.derivedFrom? x).map change := by
  rcases R x with h | h
  · exact .inl (by rw [Function.derivedFrom?, Function.derivedFrom?, h])
  · right
    rw [Function.derivedFrom?, Function.derivedFrom?, h]
    cases f.kind? x with
    | none => rfl
    | some kind =>
      cases kind with
      | cast op value => cases op <;> rfl
      | _ => rfl

theorem Readdressed.operandType (C : Operand.Readdressing change)
    (htype : ∀ v, g.valueType? v = f.valueType? v)
    (h : operand' = operand ∨ operand' = change operand) (hty : g.operandType operand' = .ok ty) :
    f.operandType operand = .ok ty := by
  cases operand with
  | value v =>
    obtain rfl : operand' = .value v := h.elim (fun h => h) (·.trans (C.value v))
    rwa [operandType_value_eq_ok, ← htype, ← operandType_value_eq_ok]
  | const c =>
    obtain ⟨c', hc, hsame⟩ := C.const c
    rcases h with rfl | rfl
    · exact hty
    · rw [hc] at hty
      rwa [Function.operandType, ← hsame]

/-- Readdressing changes no type that is crossed. -/
theorem Crosses.of_readdressed (h : g.Crosses objects operand' ty) (R : f.Readdressed change g)
    (C : Operand.Readdressing change) (htype : ∀ v, g.valueType? v = f.valueType? v)
    (hoperand : operand' = operand ∨ operand' = change operand) : f.Crosses objects operand ty := by
  have hvalue : ∀ {v operand}, Operand.value v = operand ∨ .value v = change operand →
      operand = .value v := fun h => h.elim Eq.symm fun h => C.eq_value h.symm
  have hbase : ∀ {v base'}, g.derivedFrom? v = some base' → ∃ base, f.derivedFrom? v = some base ∧
      (base' = base ∨ base' = change base) := by
    intro v base' hsource
    rcases R.derivedFrom? v with h | h
    · exact ⟨base', h ▸ hsource, .inl rfl⟩
    · obtain ⟨base, hbase, hchange⟩ := Option.map_eq_some_iff.mp (h.symm.trans hsource)
      exact ⟨base, hbase, .inr hchange.symm⟩
  induction h generalizing operand with
  | const hmem =>
    cases operand with
    | value v => rcases hoperand with h | h <;> simp [C.value] at h
    | const c =>
      rcases hoperand with h | h
      · exact h ▸ .const hmem
      · exact .const (C.crossed objects h.symm ▸ hmem)
  | @alloca v ty copies hkind =>
    obtain rfl := hvalue hoperand
    rcases R v with h | h
    · exact .alloca (h ▸ hkind)
    · obtain ⟨kind, hkind', hmap⟩ := Option.map_eq_some_iff.mp (h.symm.trans hkind)
      cases kind with
      | alloca =>
        cases hmap
        exact .alloca hkind'
      | _ => cases hmap
  | moved hsource hty hpointee =>
    obtain rfl := hvalue hoperand
    obtain ⟨base, hsource, h⟩ := hbase hsource
    exact .moved hsource (Readdressed.operandType C htype h hty) hpointee
  | derived hsource _ ih =>
    obtain rfl := hvalue hoperand
    obtain ⟨base, hsource, h⟩ := hbase hsource
    exact .derived hsource (ih h)

section

variable (T : f.Tidy)

include T

theorem readdressed_redirected :
    f.Readdressed (f.redirection r?) ((f.redirected r?).relabel name flags) := by
  have R : f.Readdresses (f.redirection r?) (f.redirected r?) := readdresses_redirected T
  intro x
  cases hvalue : f.value? x with
  | none =>
    have hnone : (f.redirected r?).value? x = none := by
      rw [← Option.not_isSome_iff_eq_none, R.has_iff, hvalue]
      simp
    exact .inl (kind?_congr (hnone.trans hvalue.symm))
  | some info =>
    have hvalue' := value?_redirected T r? hvalue
    split at hvalue'
    · right
      show (f.redirected r?).kind? x = _
      obtain ⟨ty, origin⟩ := info
      cases origin <;> simp [kind?, inst?, hvalue, hvalue', ValueInfo.mapOperands]
    · exact .inl (kind?_congr (hvalue'.trans hvalue.symm))

theorem Grounded.redirected (h : f.Grounded operand) :
    ((f.redirected r?).relabel name flags).Grounded operand := by
  have R : f.Readdresses (f.redirection r?) (f.redirected r?) := readdresses_redirected T
  exact h.readdressed readdressing_redirection R.id_eq (fun v => R.has_iff.mpr)
    (readdressed_redirected T).derivedFrom?

/-- The first block of a function that has been prepared is not entered again if it was not
before. -/
theorem Readdresses.checkEntry (R : f.Readdresses change g) (h : f.checkEntry = .ok ()) :
    g.checkEntry = .ok () := by
  have hentry : g.entryId? = f.entryId? := by rw [entryId?, entryId?, R.blocks_eq]
  have hpredecessors : ∀ b, g.predecessors b = f.predecessors b := fun b => by
    simp only [predecessors, blockIds, R.blocks_eq, R.successors_eq T]
  rw [Function.checkEntry] at h ⊢
  split at h
  · cases h
  · grind

theorem Provokes.of_redirected (h : ((f.redirected r?).relabel name flags).Provokes i cause) :
    f.Provokes i cause := by
  have R : f.Readdresses (f.redirection r?) (f.redirected r?) := readdresses_redirected T
  have C : Operand.Readdressing (f.redirection r?) := readdressing_redirection
  -- an operand that is not grounded is a value, which is not readdressed
  have hground : ∀ {operand}, ¬((f.redirected r?).relabel name flags).Grounded
      (f.redirection r? operand) → f.redirection r? operand = operand ∧ ¬f.Grounded operand := by
    intro operand hloop
    cases operand with
    | value v =>
      rw [C.value] at hloop ⊢
      exact ⟨rfl, fun h => hloop (h.redirected T)⟩
    | const c =>
      obtain ⟨c', hc, -⟩ := C.const c
      exact absurd (hc ▸ .const) hloop
  have haccess : ∀ {b id kind' ptr'}, id ∈ (f.redirected r?).instsOf b →
      (f.redirected r?).kind? id = some kind' → kind'.accessedPointer? = some ptr' →
      ∃ kind ptr, id ∈ f.instsOf b ∧ f.kind? id = some kind ∧ kind.accessedPointer? = some ptr ∧
        kind' = kind.mapOperands (f.redirection r?) ∧ ptr' = f.redirection r? ptr := by
    intro b id kind' ptr' hid hkind' hptr'
    have hid : id ∈ f.instsOf b := R.instsOf_eq ▸ hid
    obtain ⟨inst, hinst⟩ := T.listed hid
    have hkind := kind?_of_inst? hinst
    cases hkind'.symm.trans (R.kind? hid hkind)
    cases hinstKind : inst.kind <;> rw [hinstKind] at hptr' hkind <;> cases hptr'
    · exact ⟨_, _, hid, hkind, rfl, rfl, rfl⟩
    · exact ⟨_, _, hid, hkind, rfl, rfl, rfl⟩
  cases cause with
  | danglingEdge =>
    obtain ⟨b, target, htarget, hmissing⟩ := h
    exact ⟨b, target, R.successors_eq T ▸ htarget, R.blocks_eq ▸ hmissing⟩
  | missingParameter position => exact h
  | cyclicDerivation ptr' =>
    obtain ⟨b, id, kind', hid, hkind', hptr', hloop⟩ := h
    obtain ⟨kind, ptr, hid, hkind, hptr, rfl, rfl⟩ := haccess hid hkind' hptr'
    obtain ⟨heq, hloop⟩ := hground hloop
    exact ⟨b, id, kind, hid, hkind, heq.symm ▸ hptr, heq.symm ▸ hloop⟩
  | oversized ty =>
    obtain ⟨hsize, b, id, kind', ptr', hid, hkind', hptr', hasked⟩ := h
    obtain ⟨kind, ptr, hid, hkind, hptr, rfl, rfl⟩ := haccess hid hkind' hptr'
    refine ⟨hsize, b, id, kind, ptr, hid, hkind, hptr,
      hasked.imp (fun h => ?_) (.imp (fun h => ?_) ?_)⟩
    · cases kind with
      | load => exact (R.type_eq id).symm.trans h
      | store value ptr =>
        rw [accessType?_store]
        exact Readdressed.operandType (g := (f.redirected r?).relabel name flags) C R.type_eq
          (.inr rfl) (accessType?_store.mp h)
      | _ => cases hptr
    · exact h.of_readdressed (readdressed_redirected T) C R.type_eq (.inr rfl)
    · rintro ⟨operand', hmem, hloop⟩
      rw [InstKind.operands_mapOperands, List.mem_map] at hmem
      obtain ⟨operand, hmem, rfl⟩ := hmem
      exact ⟨operand, hmem, (hground hloop).2⟩

end

end Function

/-! ### Whole runs -/

namespace Module

variable {m u v m' : Module} {id : FuncId} {config : Config}

theorem Stops.provokes (S : Stops config i t store m id (.fault cause) m') (hm : m.WellFormed) :
    ∃ f, m.function id = .ok f ∧ f.Provokes i cause := by
  cases S with
  | unknown hnone => exact absurd (ordinary_function _ hnone) (by simp [Error.isOrdinary])
  | @entry f hf hentry =>
    rw [checkEntry] at hentry
    split at hentry
    · cases hentry
    · split at hentry <;> cases hentry
  | dominators hf hnone he =>
    cases he
    exact ⟨_, hf, dangles_of_dominators hnone⟩
  | @passes f dominators s hf _ hfail =>
    exact ⟨f, hf,
      Weaving.pipeline_provoked ⟨config, i, t, dominators⟩ (hm.wellFormed hf).tidy hfail⟩
  | rules _ _ hverify => exact absurd hverify verify_ne_fault

/-- A run comes to a function: the module is prepared, and all functions before it are woven. -/
def ComesTo (config : Config) (m : Module) (id : FuncId) : Prop :=
  ∃ prepared u before after reports v, (prepare config).Runs m prepared u ∧
    m.targets = before ++ id :: after ∧
    (instrumentAll config u.interface prepared.routines ⟨u.width, []⟩ before).Runs u reports v

/-- When functions before it have been woven, a function of the program is still as it was
prepared. -/
theorem Prepares.eq_relabel_of_weaves {before after : List FuncId} (P : m.Prepares r? u)
    (hm : m.WellFormed) (hf : m.function id = .ok f) (htargets : m.targets = before ++ id :: after)
    (W : Weaves config i t store u before store' v) :
    ∃ f', v.function id = .ok f' ∧ f' = (f.redirected r?).relabel f'.name f'.flags ∧
      f.Readdresses (f.redirection r?) f' := by
  have htarget : f.isTarget := by
    obtain ⟨g, hg, htarget⟩ := (mem_targets hm).mp (htargets ▸ List.mem_append_right _
      (.head _) : id ∈ m.targets)
    cases hg.symm.trans hf
    exact htarget
  have hnew : id ∉ before := fun hid => by grind [nodup_targets, List.nodup_append]
  obtain ⟨f', hf', -⟩ := P.function hf
  exact ⟨f', by rw [W.function_eq hnew, hf'], P.eq_relabel hf htarget hf',
    P.readdresses hm hf htarget hf'⟩

theorem fails_of_dominators (hf : m.function id = .ok f) (hentry : f.checkEntry = .ok ())
    (hnone : f.dominators? = none) :
    (instrumentFunction config i t store id).Fails m (.fault .danglingEdge) m := by
  rw [instrumentFunction, fails_get_bind]
  refine fails_bind.mpr (.inr ⟨f, m, runs_ofExcept.mpr ⟨hf, rfl⟩, ?_⟩)
  refine fails_bind.mpr (.inr ⟨(), m, runs_ofExcept.mpr ⟨hentry, rfl⟩, ?_⟩)
  exact fails_bind.mpr (.inl (fails_ofOption.mpr ⟨hnone, rfl, rfl⟩))

/-- Preparing a module changes neither the width of pointers nor the types of globals. -/
theorem Prepares.provokes (P : m.Prepares r? u) (h : f.Provokes u.interface cause) :
    f.Provokes m.interface cause := by
  have hwidth : u.interface.width = m.interface.width := P.width_eq
  have hobjects : u.interface.valueType? = m.interface.valueType? := by
    funext id
    simp only [Interface.valueType?, Module.interface, P.globals_eq, Array.getElem?_map,
      Option.map_map]
    refine congrArg (Option.map · _) (funext fun g => ?_)
    cases r? <;> rfl
  cases cause with
  | oversized ty =>
    rw [Provokes, hwidth, hobjects] at h
    exact h
  | _ => exact h

/-- A run on a module ends in a fault only if a function of the program provokes it: one of its
blocks branches to a missing one, it accesses memory through a pointer whose derivation does not end
in a value that exists, or no word can hold the size of what it accesses, of the object that this is
in, or of what it is moved over there. And where a run comes to a function in which control reaches
such a block, it does end in a fault. -/
theorem instrument_faults (hm : m.WellFormed) :
    (∀ cause, ((instrument config).apply m).1 = .error (.fault cause) →
      ∃ f ∈ m.functions, f.isTarget ∧ f.Provokes m.interface cause) ∧
    ∀ id f b target, m.ComesTo config id → m.function id = .ok f → f.checkEntry = .ok () →
      f.Reachable b → target ∈ f.successors b → f.blocks.size ≤ target.index →
      ((instrument config).apply m).1 = .error (.fault .danglingEdge) := by
  constructor
  · intro cause houtcome
    rcases fails_instrument.mp (fails_iff.mpr ⟨houtcome, rfl⟩)
      with hfail | ⟨prepared, u, hprepare, hfail⟩
    · cases ((prepare_endsIn hm).of_fails hfail).2
    obtain ⟨-, htargets, -, r?, P⟩ := of_runs_prepare hm hprepare
    obtain ⟨before, id, after, store, v, hids, W, hstop⟩ := fails_instrumentAll.mp hfail
    rw [htargets] at hids
    obtain ⟨f, hf, htarget⟩ := (mem_targets hm).mp (hids ▸ List.mem_append_right _
      (List.mem_cons_self ..) : id ∈ m.targets)
    obtain ⟨f', hf', heq, -⟩ := P.eq_relabel_of_weaves hm hf hids W
    obtain ⟨g, hg, hprovokes⟩ := (stops_of_fails hstop).provokes (W.wellFormed P.wellFormed)
    obtain rfl := Except.ok.inj (hf'.symm.trans hg)
    rw [heq] at hprovokes
    exact ⟨f, Array.mem_of_getElem? (function_eq_ok_iff.mp hf), htarget,
      P.provokes (hprovokes.of_redirected (hm.wellFormed hf).tidy)⟩
  · rintro id f b target ⟨prepared, u, before, after, reports, v, hprepare, htargets,
      hbefore⟩ hf hentry
      hb htarget hmissing
    obtain ⟨-, hids, -, r?, P⟩ := of_runs_prepare hm hprepare
    obtain ⟨store, W⟩ := weaves_of_runs hbefore
    obtain ⟨f', hf', -, R⟩ := P.eq_relabel_of_weaves hm hf htargets W
    have T := (hm.wellFormed hf).tidy
    obtain ⟨nodes, walk⟩ := hb
    have hreach : f.Reachable target := ⟨_, walk.step (Function.mem_succ_flowGraph.mpr htarget)⟩
    have hnone : f'.dominators? = none := by
      rw [Function.dominators?, R.flowGraph_eq T]
      refine Option.eq_none_iff_forall_ne_some.mpr fun tree htree => ?_
      have hblocks : 0 < f.blocks.size := Nat.lt_of_le_of_lt (Nat.zero_le _)
        (Function.index_lt_of_mem_successors htarget)
      exact absurd (Function.index_lt_of_reachable htree hblocks hreach) (Nat.not_lt.mpr hmissing)
    have hstop : (instrumentFunction config u.interface prepared.routines store id).Fails v
        (.fault .danglingEdge) v :=
      fails_of_dominators hf' (R.checkEntry T hentry) hnone
    have hall := fails_instrumentAll.mpr
      ⟨before, id, after, store, v, hids.trans htargets, W, hstop⟩
    exact (fails_iff.mp (fails_instrument.mpr (.inr ⟨prepared, u, hprepare, hall⟩))).1

end Module

/-! ### A stray jump -/

/-- A function whose only block jumps to one that is missing. -/
def strayJump : Function := .ofBlocks ⟨0⟩ "f" ⟨.void, [], false⟩ [
  [(.void, .jump ⟨5⟩)]]

def strayModule : Module := { name := "stray", width := .bits64, functions := #[strayJump] }

/-- The run comes to the function and ends in a fault, which the function provokes. -/
theorem instrument_faults_strayModule :
    strayModule.WellFormed ∧
      ((Module.instrument {}).apply strayModule).1 = .error (.fault .danglingEdge) ∧
      ∃ f ∈ strayModule.functions, f.isTarget ∧ f.Provokes strayModule.interface .danglingEdge := by
  have hm : strayModule.WellFormed := by decide +kernel
  have hcomes : strayModule.ComesTo {} ⟨0⟩ := by
    obtain ⟨prepared, hprepare⟩ := exists_runs
      (show ((Module.prepare {}).apply strayModule).1.isOk by decide +kernel)
    exact ⟨prepared, _, [], [], [], _, hprepare, by decide +kernel, runs_pure.mpr ⟨rfl, rfl⟩⟩
  have hfault : ((Module.instrument {}).apply strayModule).1 = .error (.fault .danglingEdge) :=
    (Module.instrument_faults hm).2 ⟨0⟩ strayJump ⟨0⟩ ⟨5⟩ hcomes rfl rfl ⟨[0], .start⟩ (by decide)
      (by decide)
  exact ⟨hm, hfault, (Module.instrument_faults hm).1 _ hfault⟩

end PointerGuard
