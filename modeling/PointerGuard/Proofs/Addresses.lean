import PointerGuard.Proofs.Grounding

/-!
# Addresses

What pointers are at run time, as far as they are computed from the starts of stack allocations and
globals, which a placement gives. Addresses are added modulo the size of the address space; the
extent of a pointer says how far it is from the start of its object.
-/

namespace PointerGuard

open Constant

variable {w : PointerWidth} {n : Nat} {t : Ty} {offset : Int} {i : Interface} {c : Constant}
  {operand : Operand}

/-! ### Evaluation -/

/-- A number as a word of the target. -/
def PointerWidth.wrap (w : PointerWidth) (n : Int) : Nat := (n % 2 ^ w.bits).toNat

/-- The signed value of the bits of an integer constant. -/
def Constant.signed? : Constant → Option Int
  | .int bits value => some (value.bmod (2 ^ bits))
  | _ => none

/-- The signed value of an operand that is an integer constant. -/
def Operand.signed? (operand : Operand) : Option Int := operand.const?.bind Constant.signed?

namespace Layout

/-- How far some indices lead into a value of type `t`. -/
def walkDistance? (w : PointerWidth) : Ty → List Int → Option Int
  | _, [] => some 0
  | .array elem _, index :: rest => (walkDistance? w elem rest).map (index * size w elem + ·)
  | .struct fields, .ofNat index :: rest => do
    let step ← fieldOffset? w fields index
    let field ← fields[index]?
    (walkDistance? w field rest).map (step + ·)
  | _, _ :: _ => none

/-- How far a path of indices leads from a pointer of type `t`; none if an index is not known or
the path does not fit the type. -/
def distance? (w : PointerWidth) (t : Ty) (path : List (Option Int)) : Option Int := do
  match ← path.mapM id with
  | [] => none
  | first :: rest =>
    let pointee ← t.pointee?
    (walkDistance? w pointee rest).map (first * size w pointee + ·)

end Layout

/-- Where the objects of a function and its module start. -/
structure Placement where
  /-- The starts of stack allocations. -/
  stack : ValueId → Nat
  /-- The starts of globals. -/
  globals : GlobalId → Nat

namespace InstKind

/-- The type of which an instruction allocates values on the stack. -/
def allocated? : InstKind → Option Ty
  | .alloca allocated _ => some allocated
  | _ => none

/-- The bytes that an instruction allocates on the stack, if their number is known. -/
def allocatedBytes? (w : PointerWidth) : InstKind → Option Int
  | .alloca allocated none => some (Layout.size w allocated)
  | .alloca allocated (some copies) => copies.signed?.map (· * Layout.size w allocated)
  | _ => none

end InstKind

namespace Function

/-- The addresses that operands evaluate to. -/
inductive AddressOf (f : Function) (i : Interface) (place : Placement) : Operand → Nat → Prop
  | global {id ty info} : i.globals[id.index]? = some info → info.external = false →
      AddressOf f i place (.const (.global id ty)) (place.globals id)
  | constGep {base indices ty distance a} :
      Layout.distance? i.width base.ty (indices.map signed?) = some distance →
      AddressOf f i place (.const base) a →
      AddressOf f i place (.const (.gep base indices ty)) (i.width.wrap (a + distance))
  | constCast {value ty a} : AddressOf f i place (.const value) a →
      AddressOf f i place (.const (.cast .bitcast value ty)) a
  | alloca {v : ValueId} {allocated copies} : f.kind? v = some (.alloca allocated copies) →
      AddressOf f i place (.value v) (place.stack v)
  | gep {v : ValueId} {base indices ty distance a} : f.kind? v = some (.gep base indices) →
      f.operandType base = .ok ty →
      Layout.distance? i.width ty (indices.map Operand.signed?) = some distance →
      AddressOf f i place base a → AddressOf f i place (.value v) (i.width.wrap (a + distance))
  | cast {v : ValueId} {value a} : f.kind? v = some (.cast .bitcast value) →
      AddressOf f i place value a → AddressOf f i place (.value v) a

end Function

/-- No object reaches beyond the last address. -/
structure Placement.Fits (place : Placement) (f : Function) (i : Interface) : Prop where
  stack : ∀ v, ∀ kind ∈ f.kind? v, ∀ bytes ∈ kind.allocatedBytes? i.width,
    place.stack v + bytes ≤ i.width.maxAddress
  globals : ∀ id : GlobalId, ∀ info ∈ i.globals[id.index]?, info.external = false →
    place.globals id + Layout.size i.width info.valueType ≤ i.width.maxAddress

/-! ### Integers and globals as they are written -/

namespace Constant

mutual

/-- Does every integer inside fit its bits as a signed number, and has every global inside the type
of a pointer to its value? -/
def isProper (i : Interface) : Constant → Bool
  | .int bits value => -(2 ^ bits) ≤ 2 * value ∧ 2 * value < 2 ^ bits
  | .global id t => i.globals[id.index]?.all fun info => t = .ptr info.valueType
  | .aggregate _ elements => areProper i elements
  | .gep base indices _ => base.isProper i && areProper i indices
  | .cast _ value _ => value.isProper i
  | .null _ | .undef _ | .zero _ | .func .. => true

/-- Are the integers and globals inside all constants of a list as they should be? -/
def areProper (i : Interface) : List Constant → Bool
  | [] => true
  | c :: cs => c.isProper i && areProper i cs

end

end Constant

/-- Are the integers and globals inside an operand as they should be? -/
def Operand.isProper (i : Interface) (operand : Operand) : Bool :=
  operand.const?.all (Constant.isProper i)

namespace Function

/-- The integers and globals in a function are as they should be. -/
def Proper (f : Function) (i : Interface) : Prop :=
  ∀ v, ∀ kind ∈ f.kind? v, ∀ operand ∈ kind.operands, operand.isProper i

/-- Every stack allocation has the type of a pointer to what it allocates. -/
def AllocasTyped (f : Function) : Prop :=
  ∀ v, ∀ kind ∈ f.kind? v, ∀ allocated ∈ kind.allocated?, f.valueType? v = some (.ptr allocated)

end Function

/-! ### Words and distances -/

namespace PointerWidth

theorem wrap_of_le (h : n ≤ w.maxAddress) : w.wrap n = n := by
  rw [maxAddress, Nat.one_shiftLeft] at h
  have hlt : n < 2 ^ w.bits := Nat.lt_of_le_pred (Nat.two_pow_pos _) h
  have hword : (n : Int) % 2 ^ w.bits = n :=
    Int.emod_eq_of_lt (Int.natCast_nonneg n) (by exact_mod_cast hlt)
  rw [wrap, hword, Int.toNat_natCast]

/-- It does not matter when an address is cut off. -/
theorem wrap_wrap_add (m n : Int) : w.wrap (w.wrap m + n) = w.wrap (m + n) := by
  have hnonneg : 0 ≤ m % 2 ^ w.bits := Int.emod_nonneg m (Int.pow_pos (by decide)).ne'
  rw [wrap, wrap, Int.toNat_of_nonneg hnonneg, Int.emod_add_emod, wrap]

end PointerWidth

theorem signedWord?_eq_some {m n : Int} (h : signedWord? n = some m) : m = n := by
  rw [signedWord?] at h
  split at h
  · exact (Option.some.inj h).symm
  · cases h

namespace Layout

variable {d : Int}

/-- An offset that is computed without overflow is the exact one. -/
theorem walkDistance?_of_walkOffset? {path : List Int} (h : walkOffset? w t offset path = some d) :
    walkDistance? w t path = some (d - offset) := by
  fun_induction walkOffset? w t offset path with
  | case1 t offset =>
    cases h
    simp [walkDistance?]
  | case2 offset elem len index rest ih =>
    simp only [Option.bind_eq_bind, Option.bind_eq_some_iff] at h
    obtain ⟨stride, hstride, step, hstep, next, hnext, hrest⟩ := h
    obtain rfl := signedWord?_eq_some hstride
    obtain rfl := signedWord?_eq_some hstep
    obtain rfl := signedWord?_eq_some hnext
    rw [walkDistance?, ih _ hrest, Option.map_some]
    exact congrArg some (by omega)
  | case3 offset fields index rest ih =>
    simp only [Option.bind_eq_bind, Option.bind_eq_some_iff] at h
    obtain ⟨step, ⟨start, hstart, hstep⟩, next, hnext, field, hfield, hrest⟩ := h
    obtain rfl := signedWord?_eq_some hstep
    obtain rfl := signedWord?_eq_some hnext
    simp only [walkDistance?, hstart, hfield, Option.bind_eq_bind, Option.bind_some,
      ih _ _ hrest, Option.map_some]
    exact congrArg some (by omega)
  | case4 => cases h

theorem walkDistance?_of_pathOffset? {first : Int} {rest : List Int}
    (h : pathOffset? w t (first :: rest) = some d) :
    walkDistance? w t rest = some (d - first * size w t) := by
  simp only [pathOffset?, Option.bind_eq_bind, Option.bind_eq_some_iff] at h
  obtain ⟨stride, hstride, start, hstart, hwalk⟩ := h
  obtain rfl := signedWord?_eq_some hstride
  obtain rfl := signedWord?_eq_some hstart
  exact walkDistance?_of_walkOffset? hwalk

theorem distance?_of_advance? {path : List (Option Int)} (h : advance? w offset t path = some d) :
    distance? w t path = some (d - offset) := by
  simp only [advance?, Option.bind_eq_bind, Option.bind_eq_some_iff] at h
  obtain ⟨indices, hindices, pointee, hpointee, step, hstep, hd⟩ := h
  obtain rfl := signedWord?_eq_some hd
  cases indices with
  | nil => cases hstep
  | cons first rest =>
    simp only [distance?, hindices, hpointee, Option.bind_eq_bind, Option.bind_some,
      walkDistance?_of_pathOffset? hstep, Option.map_some]
    exact congrArg some (by omega)

theorem distance?_one : distance? w (.ptr t) [(int w.bits 1).signed?] = some (size w t) := by
  have hone : (1 : Int).bmod (2 ^ w.bits) = 1 := by cases w <;> rfl
  simp [distance?, signed?, hone, Ty.pointee?, walkDistance?]

end Layout

/-! ### Proper integers are read as they are written -/

namespace Constant

theorem isProper_of_mem {cs : List Constant} (h : areProper i cs) (hc : c ∈ cs) : c.isProper i := by
  induction cs with
  | nil => cases hc
  | cons d ds ih =>
    simp only [areProper, Bool.and_eq_true] at h
    rcases List.mem_cons.mp hc with rfl | hc
    · exact h.1
    · exact ih h.2 hc

theorem fold_global {id : GlobalId} {info : GlobalInfo} (hinfo : i.globals[id.index]? = some info)
    (hexternal : info.external = false) :
    (global id t).fold i = .ok (.ofGlobal i.width (.global id t)) := by
  simp [fold, Interface.global, hinfo, hexternal, bind, Except.bind, pure, Except.pure]

theorem signed?_eq (h : c.isProper i) : c.signed? = c.asInt? := by
  cases c with
  | int bits value =>
    simp only [isProper, decide_eq_true_eq] at h
    rw [signed?, asInt?, Int.bmod_eq_of_le_mul_two]
    · push_cast
      omega
    · push_cast
      omega
  | _ => rfl

end Constant

theorem Operand.signed?_eq (h : operand.isProper i) :
    operand.signed? = operand.asInt? := by
  cases operand with
  | value => rfl
  | const c => exact Constant.signed?_eq h

namespace Function

variable {f g : Function} {place : Placement} {ptr source base bound : Operand} {a b : Nat}
  {extent : Extent} {start : Nat}

/-! ### Evaluation is a function -/

section

variable (h : f.AddressOf i place operand a)

include h

theorem AddressOf.unique (h' : f.AddressOf i place operand b) : a = b := by
  -- the definition of a value and the form of a constant leave one rule each
  induction h generalizing b with
  | global => cases h'; rfl
  | constGep hdistance _ ih =>
    cases h' with
    | constGep hdistance' h' => grind
  | constCast _ ih =>
    cases h' with
    | constCast h' => exact ih h'
  | alloca hkind =>
    cases h' with
    | alloca => rfl
    | gep hkind' => cases hkind.symm.trans hkind'
    | cast hkind' => cases hkind.symm.trans hkind'
  | gep hkind htype hdistance _ ih =>
    cases h' with
    | alloca hkind' => cases hkind.symm.trans hkind'
    | cast hkind' => cases hkind.symm.trans hkind'
    | gep hkind' htype' hdistance' h' => grind
  | cast hkind _ ih =>
    cases h' with
    | alloca hkind' => cases hkind.symm.trans hkind'
    | gep hkind' => cases hkind.symm.trans hkind'
    | cast hkind' h' =>
      cases hkind.symm.trans hkind'
      exact ih h'

theorem AddressOf.iff_eq : f.AddressOf i place operand b ↔ b = a :=
  ⟨fun h' => h'.unique h, fun e => e ▸ h⟩

theorem AddressOf.asVoidPtr {p : ValueId → Prop} (hcast : f.AsVoidPtr p operand ptr) :
    f.AddressOf i place ptr a := by
  cases hcast with
  | same => exact h
  | null e => subst e; cases h
  | const e => exact .constCast (e ▸ h)
  | cast hmade =>
    obtain ⟨x, rfl, -, hkind⟩ := hmade
    exact .cast hkind h

end

theorem AddressOf.constAsVoidPtr (h : f.AddressOf i place (.const c) a) :
    f.AddressOf i place (.const c.asVoidPtr) a := by
  rw [Constant.asVoidPtr]
  split
  · exact h
  · exact .constCast h

/-! ### Bounds that span an object -/

/-- Two bounds are the ends of an object as large as an extent says, and a pointer is as far from
its start as the extent says, but for a distance that it is still to be moved by. -/
structure Spans (f : Function) (i : Interface) (place : Placement) (offset : Int) (extent : Extent)
    (ptr base bound : Operand) (start : Nat) : Prop where
  ptr : f.AddressOf i place ptr (i.width.wrap (start + (extent.offset - offset)))
  base : f.AddressOf i place base start
  bound : f.AddressOf i place bound (start + extent.size)
  fits : start + extent.size ≤ i.width.maxAddress

namespace Spans

theorem of_start {size : Nat} (hptr : f.AddressOf i place ptr start)
    (hbase : f.AddressOf i place base start)
    (hbound : f.AddressOf i place bound (i.width.wrap (start + size)))
    (hfits : start + size ≤ i.width.maxAddress) :
    f.Spans i place offset ⟨size, offset⟩ ptr base bound start := by
  refine ⟨?_, hbase, ?_, hfits⟩
  · rw [Int.sub_self, Int.add_zero, PointerWidth.wrap_of_le (by omega)]
    exact hptr
  · rwa [← Int.natCast_add, PointerWidth.wrap_of_le hfits] at hbound

theorem move {offset' : Int} (h : f.Spans i place offset' extent source base bound start)
    (hmove : ∀ {a}, f.AddressOf i place source a →
      f.AddressOf i place ptr (i.width.wrap (a + (offset' - offset)))) :
    f.Spans i place offset extent ptr base bound start := by
  refine ⟨?_, h.base, h.bound, h.fits⟩
  have hptr := hmove h.ptr
  rw [PointerWidth.wrap_wrap_add] at hptr
  have hsum : (start : Int) + (extent.offset - offset') + (offset' - offset) =
      start + (extent.offset - offset) := by omega
  rwa [hsum] at hptr

/-- So many bytes lie between the bounds if they lie in the extent. -/
theorem between (h : f.Spans i place 0 extent ptr base bound start) (hnonneg : 0 ≤ extent.offset)
    (hle : extent.offset.toNat + n ≤ extent.size) :
    ∃ a, f.AddressOf i place ptr a ∧ start ≤ a ∧ a + n ≤ start + extent.size := by
  refine ⟨start + extent.offset.toNat, ?_, by omega, by omega⟩
  have hptr := h.ptr
  have hfits := h.fits
  have hcast : (start : Int) + (extent.offset - 0) = (start + extent.offset.toNat : Nat) := by omega
  rwa [hcast, PointerWidth.wrap_of_le (by omega)] at hptr

end Spans

theorem spans_of_fold {folded : FoldedMetadata} (hplace : place.Fits g i) (hproper : c.isProper i)
    (hextent : c.extent? i offset = some extent) (hfold : c.fold i = .ok folded) :
    ∃ start, f.Spans i place offset extent (.const c) (.const folded.base) (.const folded.bound)
      start := by
  fun_induction Constant.extent? i offset c with
  | case1 offset id t info hinfo hexternal => cases hextent
  | case2 offset id t info hinfo hexternal =>
    cases hextent
    have hexternal : info.external = false := by simpa using hexternal
    have htype : t = .ptr info.valueType := by simpa [isProper, hinfo] using hproper
    have hfolded : folded = .ofGlobal i.width (.global id t) := by
      have hok := (fold_global hinfo hexternal).symm.trans hfold
      exact (Except.ok.inj hok).symm
    have haddress : f.AddressOf i place (.const (.global id t)) (place.globals id) :=
      .global hinfo hexternal
    subst hfolded
    refine ⟨_, .of_start haddress haddress.constAsVoidPtr ?_ (hplace.globals _ _ hinfo hexternal)⟩
    -- the bound is one value further on
    refine AddressOf.constAsVoidPtr (.constGep ?_ haddress)
    rw [htype]
    exact Layout.distance?_one
  | case3 => cases hextent
  | case4 offset base indices t ih =>
    simp only [Option.bind_eq_bind, Option.bind_eq_some_iff] at hextent
    obtain ⟨offset', hadvance, hextent⟩ := hextent
    simp only [isProper, Bool.and_eq_true] at hproper
    obtain ⟨start, h⟩ := ih offset' hproper.1 hextent hfold
    refine ⟨start, h.move fun haddress => .constGep ?_ haddress⟩
    have hindices : indices.map signed? = indices.map asInt? :=
      List.map_congr_left fun c hc => signed?_eq (isProper_of_mem hproper.2 hc)
    rw [hindices]
    exact Layout.distance?_of_advance? hadvance
  | case5 offset value t ih =>
    obtain ⟨start, h⟩ := ih hproper hextent hfold
    refine ⟨start, ⟨.constCast h.ptr, h.base, h.bound, h.fits⟩⟩
  | case6 => cases hextent

end Function

end PointerGuard
