import PointerGuard.Proofs.Regimes

/-!
# Passes only add

A pass may fail halfway, and what it has done stays. Still, whatever its outcome, the function has
grown out of what it was.
-/

namespace PointerGuard.Weaving

open Edit

variable {env : Env} {f : Function} {s : Weaving} {id : ValueId} {kind : InstKind}

/-- The function has grown out of `f`, the placeholders are phis that were spliced in for listed
ones, and what is deferred is listed. -/
structure Intact (env : Env) (f : Function) (s : Weaving) : Prop where
  woven : s.Woven env Any f
  phis : ∀ ph ∈ s.placeholders, ph.phi ∈ f.listing
  shadows : ∀ ph ∈ s.placeholders, ∀ c x, (c, x) ∈ ph.shadows → f.values.size ≤ x.index
  deferred : ∀ id ∈ s.deferred, id ∈ f.listing

theorem Intact.kind? (h : s.Intact env f) (hkind : f.kind? id = some kind) :
    s.func.kind? id = some kind :=
  h.woven.grows.kind?_eq hkind

theorem Intact.value?_of_mem_listing (h : s.Intact env f) (hid : id ∈ f.listing) :
    s.func.value? id = f.value? id := by
  obtain ⟨b, hb⟩ := Function.mem_listing.mp hid
  exact h.woven.grows.value?_eq (h.woven.tidy.index_lt hb)

theorem Intact.kind?_of_mem_listing (h : s.Intact env f) (hid : id ∈ f.listing)
    (hkind : s.func.kind? id = some kind) : f.kind? id = some kind := by
  rw [← Function.kind?_congr (h.value?_of_mem_listing hid), hkind]

/-- Passes come to instructions of the function, insert where there is a place, and give edges to
phis that they have spliced in. -/
def intactRegime (env : Env) (f : Function) : Regime env where
  terms := .plain Any
  leads _ := Intact env f
  fails := Error.NoViolation
  visits id := id ∈ f.listing
  places point := ∀ {s b i}, Intact env f s → s.func.locate? point = some (b, i) → s.func.Place b i
  shadows x := f.values.size ≤ x.index
  trans _ h := h
  arrive h := h
  ordinary _ := .of_isOrdinary
  before _ := Function.place_before
  prologue _ := Function.place_prologue
  after hs hid hkind hterm _ _ _ ht :=
    Function.place_after (ht.kind? (hs.kind?_of_mem_listing hid hkind)) hterm
  fresh hs hx := hs.woven.grows.size_le.trans hx
  program {s b id} hs hid := by
    rw [hs.woven.grows.programInsts_eq hs.woven.tidy] at hid
    exact Function.mem_listing.mpr ⟨b, (List.mem_filter.mp hid).1⟩
  deferred hs := hs.deferred _
  expected hs hph hx := ⟨hs.shadows _ hph _ _ hx, False.elim⟩
  splice hs hpoint hlocate spins :=
    ⟨⟨hs.woven.tidy, hs.woven.grows.trans (spins.adds.grows (fun _ h => h) (hpoint hs hlocate)).1⟩,
      hs.phis, hs.shadows, hs.deferred⟩
  edge hs hphi _ _ hadd := by
    obtain ⟨incoming, hkind, rfl⟩ := Function.addIncoming_eq_ok_iff.mp hadd
    exact ⟨⟨hs.woven.tidy, .edge hs.woven.grows hphi hkind⟩, hs.phis, hs.shadows, hs.deferred⟩
  lock hs _ := ⟨⟨hs.woven.tidy, hs.woven.grows⟩, hs.phis, hs.shadows, hs.deferred⟩
  frame hs _ := ⟨⟨hs.woven.tidy, hs.woven.grows⟩, hs.phis, hs.shadows, hs.deferred⟩
  count hs := ⟨⟨hs.woven.tidy, hs.woven.grows⟩, hs.phis, hs.shadows, hs.deferred⟩
  cover hs := ⟨⟨hs.woven.tidy, hs.woven.grows⟩, hs.phis, hs.shadows, hs.deferred⟩
  expect hs hid hadded := ⟨⟨hs.woven.tidy, hs.woven.grows⟩, List.forall_mem_append.mpr
    ⟨hs.phis, by simpa using hid⟩, List.forall_mem_append.mpr
    ⟨hs.shadows, by simpa using fun c x hx => (hadded c x hx).1⟩, hs.deferred⟩
  defer hs hid := ⟨⟨hs.woven.tidy, hs.woven.grows⟩, hs.phis, hs.shadows,
    List.forall_mem_append.mpr ⟨hs.deferred, by simpa using hid⟩⟩
  fill hs := ⟨⟨hs.woven.tidy, hs.woven.grows⟩, nofun, nofun, hs.deferred⟩
  retry hs := ⟨⟨hs.woven.tidy, hs.woven.grows⟩, hs.phis, hs.shadows, nofun⟩
  search _ _ := .fault
  source _ _ _ _ _ _ := .fault
  oversize _ _ _ _ _ _ _ := .fault

theorem intact_before : (intactRegime env f).places (.before id) := (intactRegime env f).before

theorem intact_prologue : (intactRegime env f).places .prologue := (intactRegime env f).prologue

theorem intact_records : (intactRegime env f).Records :=
  fun hs _ => ⟨⟨hs.woven.tidy, hs.woven.grows⟩, hs.phis, hs.shadows, hs.deferred⟩

/-- No pass does anything but add to the function, and none finds it at fault. -/
theorem pipeline_harmless :
    (env.config.pipeline.mapM (runPass env)).Upholds (Intact env f) Error.NoViolation :=
  fun s hs => (Regime.pipeline (s := s) intact_records (Regime.insertChecks trivial) s hs).endsIn

end PointerGuard.Weaving
