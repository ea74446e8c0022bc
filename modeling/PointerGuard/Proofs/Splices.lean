import PointerGuard.Proofs.Edits
import PointerGuard.Proofs.Order

/-!
# What a splice does

`Splice.Adds` is the relation between a splice and what it has become: each instruction added is of
an allowed kind, and its operands are constants, values given from outside, or values added before
it.
-/

namespace PointerGuard

open PointerGuard.Function Splice InstKind

variable {allowed : InstKind → Prop} {v : Splice} {x y : ValueId} {t : RoutineTable}
  {p : Routine → Prop} {info : ValueInfo} {f g : Function} {b : BlockId} {i : Nat}
  {point : InsertPoint} {place place' : ValueId → Prop}

namespace Splice

/-- The splice with one more instruction. -/
def push (s : Splice) (kind : InstKind) (ty : Ty) : Splice where
  func := s.func.insertAt s.block s.position kind ty
  block := s.block
  position := s.position + 1

/-- An operand that can be used after some insertions: one that is given, a constant, or the result
of an insertion that is not `void`. -/
def Usable (given : Operand → Prop) (s u : Splice) (operand : Operand) : Prop :=
  given operand ∨ operand.value? = none ∨
    ∃ x ty, operand = .value x ∧ s.func.values.size ≤ x.index ∧
      u.func.valueType? x = some ty ∧ ty.isVoid = false

/-- One splice has become another by insertions of allowed kinds with usable operands. -/
inductive Adds (allowed : InstKind → Prop) (given : Operand → Prop) (s : Splice) : Splice → Prop
  | refl : Adds allowed given s s
  | push {u kind ty} : Adds allowed given s u → allowed kind →
      (∀ operand ∈ kind.operands, Usable given s u operand) →
      Adds allowed given s (u.push kind ty)

/-- One splice has become another by insertions of some kinds, with some results. -/
inductive Inserts (s : Splice) : List ValueId → List InstKind → Splice → Prop
  | refl : Inserts s [] [] s
  | push {ids kinds u kind ty} : Inserts s ids kinds u →
      Inserts s (ids ++ [u.func.nextValue]) (kinds ++ [kind]) (u.push kind ty)

/-- A value was inserted, with a kind and a type. -/
structure New (s u : Splice) (x : ValueId) (kind : InstKind) (ty : Ty) : Prop where
  size_le : s.func.values.size ≤ x.index
  value? : u.func.value? x = some ⟨ty, .inst ⟨kind, s.block, true⟩⟩

/-- What is known of a value in one splice is known of it in another. -/
def Extends (s u : Splice) : Prop :=
  ∀ x info, s.func.value? x = some info → u.func.value? x = some info

variable {given : Operand → Prop} {s u r : Splice} {kind : InstKind} {ty : Ty} {operand : Operand}

theorem Extends.trans (E : Extends s u) (E' : Extends u v) : Extends s v :=
  fun x info h => E' x info (E x info h)

theorem New.mono (N : New s u x kind ty) (E : Extends u v) : New s v x kind ty :=
  ⟨N.size_le, E _ _ N.value?⟩

theorem extends_push : Extends s (s.push kind ty) := fun x info h => by
  rw [push, value?_insertAt_of_some h, h]

namespace Inserts

variable {ids ids' front rest : List ValueId} {kinds kinds' : List InstKind}

section

variable (I : s.Inserts ids kinds u)

include I

theorem trans (I' : u.Inserts ids' kinds' v) : s.Inserts (ids ++ ids') (kinds ++ kinds') v := by
  induction I' with
  | refl => rwa [List.append_nil, List.append_nil]
  | push _ ih =>
    rw [← List.append_assoc, ← List.append_assoc]
    exact .push ih

theorem block_eq : u.block = s.block := by
  induction I with
  | refl => rfl
  | push _ ih => exact ih

theorem size_le : s.func.values.size ≤ u.func.values.size := by
  induction I with
  | refl => exact Nat.le_refl _
  | push _ ih =>
    rw [Splice.push, size_values_insertAt]
    omega

theorem keeps : Extends s u := by
  induction I with
  | refl => exact fun _ _ h => h
  | push _ ih => exact ih.trans extends_push

theorem kind?_eq (h : s.func.kind? x = some kind) : u.func.kind? x = some kind := by
  obtain ⟨inst, ty, rfl, hvalue⟩ := value?_of_kind? h
  rw [kind?_congr ((I.keeps _ _ hvalue).trans hvalue.symm), h]

theorem new (hx : x ∈ ids) : ∃ kind ty, New s u x kind ty := by
  induction I with
  | refl => cases hx
  | @push ids kinds u kind ty I ih =>
    rcases List.mem_append.mp hx with hx | hx
    · obtain ⟨kind', ty', N⟩ := ih hx
      exact ⟨kind', ty', N.mono extends_push⟩
    · obtain rfl := List.mem_singleton.mp hx
      exact ⟨kind, ty, I.size_le, by rw [Splice.push, value?_insertAt_nextValue, I.block_eq]⟩

theorem size_le_of_mem (hx : x ∈ ids) : s.func.values.size ≤ x.index := by
  obtain ⟨_, _, N⟩ := I.new hx
  exact N.size_le

theorem mem_of_value? (h : u.func.value? x = some info) :
    s.func.value? x = some info ∨ x ∈ ids := by
  induction I with
  | refl => exact .inl h
  | @push ids kinds u kind ty _ ih =>
    by_cases hnext : x = u.func.nextValue
    · simp [hnext]
    · rw [Splice.push, value?_insertAt_of_ne hnext] at h
      exact (ih h).imp_right (List.mem_append_left _)

theorem mem_of_new (hle : s.func.values.size ≤ x.index) (h : u.func.value? x = some info) :
    x ∈ ids := by
  refine (I.mem_of_value? h).resolve_left fun hold => ?_
  exact absurd (index_lt_of_value? hold).2 (Nat.not_lt.mpr hle)

theorem nodup : ids.Nodup := by
  induction I with
  | refl => exact List.nodup_nil
  | push I ih =>
    refine List.nodup_append.mpr ⟨ih, List.nodup_singleton _, fun x hx y hy hxy => ?_⟩
    obtain ⟨kind, ty, N⟩ := I.new hx
    have hvalue := N.value?
    rw [hxy, List.mem_singleton.mp hy, value?_nextValue] at hvalue
    cases hvalue

theorem map_kind? : ids.map u.func.kind? = kinds.map some := by
  induction I with
  | refl => rfl
  | @push ids kinds u kind ty I ih =>
    rw [List.map_append, List.map_append, ← ih]
    congr 1
    · refine List.map_congr_left fun x hx => ?_
      obtain ⟨kind', ty', N⟩ := I.new hx
      rw [Splice.push, kind?_congr (value?_insertAt_of_some N.value?)]
    · rw [List.map_singleton, List.map_singleton, List.cons.injEq]
      exact ⟨kind?_eq_some_iff.mpr ⟨_, inst?_insertAt_nextValue, rfl⟩, rfl⟩

/-- The results stand together, at the place of the splice, and nothing else changes. -/
theorem instsOf_eq (hb : s.block.index < s.func.blocks.size)
    (hsplit : s.func.instsOf s.block = front ++ rest) (hposition : s.position = front.length) :
    u.func.instsOf s.block = front ++ ids ++ rest ∧ u.position = (front ++ ids).length ∧
      u.func.blocks.size = s.func.blocks.size ∧
      ∀ c, c ≠ s.block → u.func.instsOf c = s.func.instsOf c := by
  induction I with
  | refl => grind
  | @push ids kinds u kind ty I ih =>
    obtain ⟨hlist, hpos, hsize, hother⟩ := ih
    have hblock : u.block.index < u.func.blocks.size := by rwa [I.block_eq, hsize]
    refine ⟨?_, by simp [Splice.push, hpos, Nat.add_assoc], ?_, fun c hc => ?_⟩
    · have hinsert : (u.push kind ty).func.instsOf u.block = _ :=
        instsOf_insertAt hblock
      rw [I.block_eq, hlist, hpos, List.take_left] at hinsert
      rw [hinsert]
      simp
    · rw [Splice.push, size_blocks_insertAt, hsize]
    · rw [← hother c hc]
      exact instsOf_insertAt_of_ne (I.block_eq ▸ hc)

end

end Inserts

namespace Adds

theorem inserts (A : Adds allowed given s u) : ∃ ids kinds, s.Inserts ids kinds u := by
  induction A with
  | refl => exact ⟨[], [], .refl⟩
  | push _ _ _ ih =>
    obtain ⟨ids, kinds, I⟩ := ih
    exact ⟨_, _, .push I⟩

theorem block_eq (A : Adds allowed given s u) : u.block = s.block := by
  obtain ⟨ids, kinds, I⟩ := A.inserts
  exact I.block_eq

theorem size_le (A : Adds allowed given s u) : s.func.values.size ≤ u.func.values.size := by
  obtain ⟨ids, kinds, I⟩ := A.inserts
  exact I.size_le

end Adds

theorem Adds.extends (A : Adds allowed given s u) : Extends s u := by
  obtain ⟨ids, kinds, I⟩ := A.inserts
  exact I.keeps

theorem Usable.mono (E : Extends s u) (h : Usable given r s operand) :
    Usable given r u operand := by
  rcases h with h | h | ⟨x, ty, hx, hle, htype, hvoid⟩
  · exact .inl h
  · exact .inr (.inl h)
  · obtain ⟨info, hvalue, rfl⟩ := Option.map_eq_some_iff.mp htype
    refine .inr (.inr ⟨x, _, hx, hle, ?_, hvoid⟩)
    rw [valueType?, E _ _ hvalue, Option.map_some]

theorem New.usable (N : New s u x kind ty) (hvoid : ty.isVoid = false) :
    Usable given s u (.value x) := by
  refine .inr (.inr ⟨x, ty, rfl, N.size_le, ?_, hvoid⟩)
  rw [valueType?, N.value?, Option.map_some]

namespace Adds

/-- The new instructions stand together, at the place of the splice. -/
theorem instsOf_eq (A : Adds allowed given s u) (hb : s.block.index < s.func.blocks.size)
    (front rest : List ValueId) (hsplit : s.func.instsOf s.block = front ++ rest)
    (hposition : s.position = front.length) :
    ∃ new, u.func.instsOf s.block = front ++ new ++ rest ∧
      (∀ x ∈ new, s.func.values.size ≤ x.index) ∧
      ∀ x info, s.func.values.size ≤ x.index → u.func.value? x = some info → x ∈ new := by
  obtain ⟨ids, kinds, I⟩ := A.inserts
  exact ⟨ids, (I.instsOf_eq hb hsplit hposition).1, fun x => I.size_le_of_mem,
    fun x info => I.mem_of_new⟩

theorem grows (A : Adds allowed given s u) (hallowed : ∀ kind, allowed kind → kind.Weft t p)
    (place : s.func.Place s.block s.position) :
    s.func.Grows t p u.func ∧ u.func.Place u.block u.position := by
  induction A with
  | refl => exact ⟨.refl, place⟩
  | push _ hkind _ ih =>
    have weft := hallowed _ hkind
    exact ⟨.insert ih.1 ih.2 weft, ih.2.insertAt weft⟩

end Adds

end Splice

/-! ### Where a splice is opened -/

namespace Function

theorem instsOf_eq_of_idxOf? (h : (f.instsOf b).idxOf? y = some i) :
    ∃ before after, f.instsOf b = before ++ y :: after ∧ i = before.length := by
  obtain ⟨hlt, hget, -⟩ := List.idxOf?_eq_some_iff.mp h
  refine ⟨(f.instsOf b).take i, (f.instsOf b).drop (i + 1), ?_, ?_⟩
  · grind [List.take_append_drop, List.drop_eq_getElem_cons]
  · rw [List.length_take]
    omega

theorem locate?_before (h : f.locate? (.before y) = some (b, i)) :
    ∃ before after, f.instsOf b = before ++ y :: after ∧ i = before.length := by
  simp only [locate?, Option.bind_eq_bind, Option.bind_eq_some_iff] at h
  obtain ⟨inst, -, position, hposition, rfl, rfl⟩ := h
  exact instsOf_eq_of_idxOf? hposition

theorem locate?_after (h : f.locate? (.after y) = some (b, i)) :
    ∃ before after, f.instsOf b = before ++ y :: after ∧ i = (before ++ [y]).length := by
  simp only [locate?, Option.bind_eq_bind, Option.bind_eq_some_iff] at h
  obtain ⟨inst, -, position, hposition, rfl, rfl⟩ := h
  obtain ⟨before, after, hsplit, rfl⟩ := instsOf_eq_of_idxOf? hposition
  exact ⟨before, after, hsplit, by simp⟩

/-- The top of the first block ends where its first instruction of the program stands. -/
theorem locate?_prologue (h : f.locate? .prologue = some (b, i)) :
    b = ⟨0⟩ ∧ b.index < f.blocks.size ∧ ∃ top rest, f.instsOf b = top ++ rest ∧ i = top.length ∧
      (∀ x ∈ top, f.isProgramInst x = false) ∧ ∀ y l, rest = y :: l → f.isProgramInst y := by
  simp only [locate?, entryId?, Option.bind_eq_bind, Option.bind_eq_some_iff] at h
  obtain ⟨entry, hentry, block, hblock, rfl, rfl⟩ := h
  split at hentry
  · cases hentry
  cases hentry
  have hinsts : f.instsOf ⟨0⟩ = block.insts := by rw [instsOf, hblock]
  refine ⟨rfl, (Array.getElem?_eq_some_iff.mp hblock).1,
    block.insts.takeWhile (!f.isProgramInst ·), block.insts.dropWhile (!f.isProgramInst ·), ?_, rfl,
    fun x hx => ?_, fun y l hrest => ?_⟩
  · rw [hinsts, List.takeWhile_append_dropWhile]
  · simpa using List.mem_takeWhile_imp hx
  · have := List.head?_dropWhile_not (!f.isProgramInst ·) block.insts
    simpa [hrest] using this

end Function

/-- An insert point at which instructions other than phis are spliced into what a function has
grown to: next to an instruction of the function that is not a phi, and not behind a terminator, or
at the top. -/
def InsertPoint.Anchored (f g : Function) : InsertPoint → Prop
  | .before y => y.index < f.values.size ∧ ∃ kind, g.kind? y = some kind ∧ kind.isPhi = false
  | .after y => y.index < f.values.size ∧
      ∃ kind, g.kind? y = some kind ∧ kind.isPhi = false ∧ kind.isTerminator = false
  | .prologue => True
  | _ => False

namespace Function

variable {c : BlockId}

theorem place_before (h : g.locate? (.before y) = some (b, i)) : g.Place b i := by
  obtain ⟨before, after, hsplit, rfl⟩ := locate?_before h
  have hlength : before.length < (g.instsOf b).length := by simp [hsplit]
  have hy : y ∈ g.instsOf b := by simp [hsplit]
  exact ⟨index_lt_of_mem_instsOf hy, hlength.le, .inl hlength⟩

theorem place_after {kind : InstKind} (hkind : g.kind? y = some kind)
    (hterm : kind.isTerminator = false) (h : g.locate? (.after y) = some (b, i)) : g.Place b i := by
  obtain ⟨before, after, hsplit, rfl⟩ := locate?_after h
  have hy : y ∈ g.instsOf b := by simp [hsplit]
  refine ⟨index_lt_of_mem_instsOf hy, by simp [hsplit], ?_⟩
  cases after with
  | nil => exact .inr (.inl (terminator?_eq_none_of_last (by simp [hsplit]) hkind hterm))
  | cons z after => exact .inl (by simp [hsplit])

theorem place_prologue (h : g.locate? .prologue = some (b, i)) : g.Place b i := by
  obtain ⟨rfl, hb, top, rest, hsplit, rfl, htop, hrest⟩ := locate?_prologue h
  refine ⟨hb, by simp [hsplit], ?_⟩
  cases rest with
  | nil =>
    refine .inr (.inr ⟨rfl, List.filter_eq_nil_iff.mpr fun x hx => ?_⟩)
    rw [hsplit, List.append_nil] at hx
    simp [htop x hx]
  | cons y rest => exact .inl (by simp [hsplit])

theorem place_beforeTerminator (h : g.locate? (.beforeTerminator c) = some (b, i)) :
    g.Place b i := by
  simp only [locate?, Option.bind_eq_bind, Option.bind_eq_some_iff, Option.pure_def,
    Option.some.injEq, Prod.mk.injEq] at h
  obtain ⟨block, hblock, rfl, rfl⟩ := h
  have hinsts : g.instsOf c = block.insts := by rw [instsOf, hblock]
  refine ⟨(Array.getElem?_eq_some_iff.mp hblock).1, by rw [hinsts]; split <;> omega, ?_⟩
  split
  · rename_i hterm
    obtain ⟨last, hlast⟩ := Option.isSome_iff_exists.mp hterm
    have hmem := List.mem_of_getLast? (terminator?_eq_some_iff.mp hlast).1
    rw [hinsts] at hmem ⊢
    have hpos := List.length_pos_of_mem hmem
    exact .inl (by omega)
  · rename_i hterm
    exact .inr (.inl (Option.not_isSome_iff_eq_none.mp hterm))

theorem Place.of_anchored (hpoint : point.Anchored f g) (h : g.locate? point = some (b, i)) :
    g.Place b i := by
  cases point with
  | before y => exact place_before h
  | after y =>
    obtain ⟨-, kind, hkind, -, hterm⟩ := hpoint
    exact place_after hkind hterm h
  | prologue => exact place_prologue h
  | afterPhis b => exact hpoint.elim
  | beforeTerminator b => exact hpoint.elim

end Function

namespace Splice.Adds

variable {given : Operand → Prop} {u : Splice}

section

variable (A : Adds allowed given ⟨f, b, i⟩ u) (hallowed : ∀ kind, allowed kind → kind.Weft t p)
  (T : f.Tidy)

include A hallowed T

theorem trails (place : f.Place b i) (hlocate : f.locate? (.after y) = some (b, i))
    (hle : f.values.size ≤ x.index) (hx : u.func.value? x = some info) : u.func.Trails y x := by
  obtain ⟨before, after, hsplit, hposition⟩ := locate?_after hlocate
  have G := (A.grows hallowed place).1
  obtain ⟨new, hlist, hold, hnew⟩ :=
    A.instsOf_eq place.block_lt (before ++ [y]) after (by simpa using hsplit) hposition
  refine .of_append (G.tidy T) (by simpa using hlist) (hnew x info hle hx) fun z hz => ?_
  exact G.not_isProgramInst (hold z hz)

/-- What is spliced in before an instruction stands in the gap before it. -/
theorem mem_gapBefore (hlocate : f.locate? (.before y) = some (b, i))
    (hle : f.values.size ≤ x.index) (hx : u.func.value? x = some info) :
    x ∈ u.func.gapBefore b y := by
  obtain ⟨before, after, hsplit, hposition⟩ := locate?_before hlocate
  have place := place_before hlocate
  have G := (A.grows hallowed place).1
  have T' := G.tidy T
  obtain ⟨new, hlist, hold, hnew⟩ :=
    A.instsOf_eq place.block_lt before (y :: after) hsplit hposition
  have hxnew := hnew x info hle hx
  rw [mem_gapBefore_iff T' (by rw [hlist]; simp), Precedes.of_append T' hlist]
  refine ⟨List.mem_append_right _ hxnew, G.not_isProgramInst hle, fun z hz hprec => ?_⟩
  rw [Precedes.of_append T' hlist, List.mem_append] at hprec
  rcases hprec with hz' | hz'
  · grind [Precedes.of_mem_append, List.append_assoc]
  · rw [G.not_isProgramInst (hold z hz')] at hz
    cases hz

theorem early (hlocate : f.locate? .prologue = some (b, i)) (hle : f.values.size ≤ x.index)
    (hx : u.func.value? x = some info) : u.func.Early x := by
  obtain ⟨rfl, hb, top, rest, hsplit, hposition, htop, -⟩ := locate?_prologue hlocate
  have G := (A.grows hallowed (place_prologue hlocate)).1
  obtain ⟨new, hlist, hold, hnew⟩ := A.instsOf_eq hb top rest hsplit hposition
  refine .of_append (G.tidy T) hlist (hnew x info hle hx) (fun z hz => ?_) fun z hz => ?_
  · have hz' : z ∈ f.instsOf ⟨0⟩ := by rw [hsplit]; exact List.mem_append_left _ hz
    rw [G.isProgramInst_eq (T.index_lt hz'), htop z hz]
  · exact G.not_isProgramInst (hold z hz)

end

end Splice.Adds

/-! ### Single insertions -/

/-- The kinds of instructions that are spliced in on their own: all but phis. -/
def InstKind.Plain (t : RoutineTable) (p : Routine → Prop) (kind : InstKind) : Prop :=
  kind.Weft t p ∧ kind.isPhi = false

/-- An operand is the result of an instruction of some kind at some kind of place. -/
def Function.Made (f : Function) (place : ValueId → Prop) (kind : InstKind) (operand : Operand) :
    Prop :=
  ∃ x, operand = .value x ∧ place x ∧ f.kind? x = some kind

/-- One operand is another as an `i8*`; if a cast is needed it stands at some kind of place. -/
inductive Function.AsVoidPtr (f : Function) (place : ValueId → Prop) (operand : Operand) :
    Operand → Prop
  | same {ty} : f.operandType operand = .ok ty → ty.isVoidPtr → AsVoidPtr f place operand operand
  | null {ty} : operand = .const (.null ty) → AsVoidPtr f place operand (.const .nullVoidPtr)
  | const {c} : operand = .const c → AsVoidPtr f place operand (.const (.cast .bitcast c .voidPtr))
  | cast {result} : f.Made place (.cast .bitcast operand) result →
      f.operandType result = .ok .voidPtr → AsVoidPtr f place operand result

theorem Function.AsVoidPtr.map {f g : Function} {place place' : ValueId → Prop}
    {operand result : Operand}
    (htype : ∀ {o ty}, f.operandType o = .ok ty → g.operandType o = .ok ty)
    (hmade : f.Made place (.cast .bitcast operand) result →
      g.Made place' (.cast .bitcast operand) result)
    (h : f.AsVoidPtr place operand result) : g.AsVoidPtr place' operand result := by
  cases h with
  | same h hvoid => exact .same (htype h) hvoid
  | null hnull => exact .null hnull
  | const hconst => exact .const hconst
  | cast h h' => exact .cast (hmade h) (htype h')

namespace Splice

/-- A value is not yet there when a splice is opened. -/
def Fresh (s : Splice) (x : ValueId) : Prop := s.func.values.size ≤ x.index

theorem New.made {s u : Splice} {kind : InstKind} {ty : Ty} (N : New s u x kind ty) :
    u.func.Made (Fresh s) kind (.value x) := by
  refine ⟨x, rfl, N.size_le, kind?_eq_some_iff.mpr ⟨⟨kind, s.block, true⟩, ?_, rfl⟩⟩
  exact inst?_eq_some_iff.mpr ⟨ty, N.value?⟩

theorem New.operandType {s u : Splice} {kind : InstKind} {ty : Ty} (N : New s u x kind ty) :
    u.func.operandType (.value x) = .ok ty := by
  rw [Function.operandType, Function.valueType?, N.value?, Option.map_some]

open Edit

variable {given : Operand → Prop} {s u : Splice} {kind : InstKind} {ty : Ty}
  {operand result : Operand}

theorem runs_insert : (insert kind ty).Runs s x u ↔ x = s.func.nextValue ∧ s.push kind ty = u := by
  rw [insert, runs_get_bind]
  simp only [runs_bind, runs_set, runs_pure]
  constructor
  · rintro ⟨_, _, rfl, rfl, rfl⟩
    exact ⟨rfl, rfl⟩
  · rintro ⟨rfl, rfl⟩
    exact ⟨⟨⟩, _, rfl, rfl, rfl⟩

theorem inserts_insert (h : (insert kind ty).Runs s x u) : s.Inserts [x] [kind] u := by
  obtain ⟨rfl, rfl⟩ := runs_insert.mp h
  exact .push .refl

theorem runs_operandType :
    (operandType operand).Runs s ty u ↔ s.func.operandType operand = .ok ty ∧ s = u := by
  rw [operandType, runs_get_bind, runs_ofExcept]

theorem Adds.insert (A : Adds allowed given s u) (h : (insert kind ty).Runs u x v)
    (hkind : allowed kind) (hoperands : ∀ operand ∈ kind.operands, Usable given s u operand) :
    Adds allowed given s v ∧ Extends u v ∧ New s v x kind ty := by
  obtain ⟨rfl, rfl⟩ := runs_insert.mp h
  refine ⟨.push A hkind hoperands, extends_push, A.size_le, ?_⟩
  rw [Splice.push, value?_insertAt_nextValue, A.block_eq]

section

variable (A : Adds (Plain t p) given s u)

include A

theorem Adds.call {r : Routine} {args : List Operand} (h : (t.call r args).Runs u x v) (hr : p r)
    (hargs : ∀ arg ∈ args, Usable given s u arg) :
    Adds (Plain t p) given s v ∧ Extends u v ∧
      New s v x (.call (t.callee r) args (t.signature r)) (t.signature r).ret := by
  refine A.insert h ⟨.call hr, rfl⟩ fun operand hoperand => ?_
  rcases List.mem_cons.mp hoperand with rfl | hoperand
  · exact .inr (.inl rfl)
  · exact hargs operand hoperand

theorem Adds.extract {index : Nat} (h : (extract operand index).Runs u x v)
    (hoperand : Usable given s u operand) :
    Adds (Plain t p) given s v ∧ Extends u v ∧
      ∃ aggregate ty, u.func.operandType operand = .ok aggregate ∧
        aggregate.element? index = some ty ∧ New s v x (.extract operand index) ty := by
  simp only [Splice.extract, runs_bind, runs_operandType] at h
  obtain ⟨aggregate, _, ⟨htype, rfl⟩, h⟩ := h
  split at h
  · rename_i ty helement
    obtain ⟨B, E, N⟩ := A.insert h ⟨.extract, rfl⟩ (by simpa [operands] using hoperand)
    exact ⟨B, E, aggregate, ty, htype, helement, N⟩
  · exact absurd h runs_throw

theorem Adds.select {cond ifTrue ifFalse : Operand}
    (h : (select cond ifTrue ifFalse).Runs u x v) (hcond : Usable given s u cond)
    (htrue : Usable given s u ifTrue) (hfalse : Usable given s u ifFalse) :
    Adds (Plain t p) given s v ∧ Extends u v ∧
      ∃ ty, New s v x (.select cond ifTrue ifFalse) ty := by
  simp only [Splice.select, runs_bind, runs_operandType] at h
  obtain ⟨ty, _, ⟨-, rfl⟩, h⟩ := h
  obtain ⟨B, E, N⟩ := A.insert h ⟨.select, rfl⟩
    (by simpa [operands] using ⟨hcond, htrue, hfalse⟩)
  exact ⟨B, E, ty, N⟩

end

/-- Taking a pointer as an `i8*` inserts nothing, or one cast of a value. -/
theorem toVoidPtr_cases (h : (toVoidPtr operand).Runs s result u) :
    ∃ ty, s.func.operandType operand = .ok ty ∧ ty.isPointer ∧
      ((s = u ∧ (∀ place, s.func.AsVoidPtr place operand result) ∧
          (result = operand ∨ result.value? = none)) ∨
        ∃ x, result = .value x ∧ (insert (.cast .bitcast operand) .voidPtr).Runs s x u) := by
  simp only [toVoidPtr, runs_bind, runs_operandType, runs_ite, runs_throw] at h
  obtain ⟨ty, _, ⟨htype, rfl⟩, ⟨hpointer, h⟩ | ⟨-, _, _, h, -⟩⟩ := h
  · refine ⟨ty, htype, hpointer, ?_⟩
    rcases h with ⟨hvoid, rfl, rfl⟩ | ⟨-, h⟩
    · exact .inl ⟨rfl, fun _ => .same htype hvoid, .inl rfl⟩
    · split at h
      · obtain ⟨rfl, rfl⟩ := runs_pure.mp h
        exact .inl ⟨rfl, fun _ => .null rfl, .inr rfl⟩
      · obtain ⟨rfl, rfl⟩ := runs_pure.mp h
        exact .inl ⟨rfl, fun _ => .const rfl, .inr rfl⟩
      · simp only [runs_bind] at h
        obtain ⟨x, _, hinsert, rfl, rfl⟩ := h
        exact .inr ⟨x, rfl, hinsert⟩
  · exact h.elim

theorem Adds.toVoidPtr (A : Adds (Plain t p) given s u)
    (h : (toVoidPtr operand).Runs u result v) (hoperand : Usable given s u operand) :
    Adds (Plain t p) given s v ∧ Extends u v ∧
      v.func.AsVoidPtr (Fresh s) operand result ∧ Usable given s v result := by
  obtain ⟨ty, -, -, ⟨rfl, hvoid, hresult⟩ | ⟨x, rfl, hinsert⟩⟩ := toVoidPtr_cases h
  · refine ⟨A, fun _ _ h => h, hvoid _, ?_⟩
    rcases hresult with rfl | hresult
    · exact hoperand
    · exact .inr (.inl hresult)
  · obtain ⟨B, E, N⟩ := A.insert hinsert ⟨.bitcast, rfl⟩
      (by simpa [operands] using hoperand)
    exact ⟨B, E, .cast N.made N.operandType, N.usable rfl⟩

end Splice

/-! ### Results of insertions -/

namespace Splice.Extends

variable {s u : Splice} {kind : InstKind} {operand result : Operand}

theorem kind?_eq (E : Extends s u) (h : s.func.kind? x = some kind) :
    u.func.kind? x = some kind := by
  obtain ⟨inst, ty, rfl, hvalue⟩ := value?_of_kind? h
  refine kind?_eq_some_iff.mpr ⟨inst, ?_, rfl⟩
  exact inst?_eq_some_iff.mpr ⟨ty, E _ _ hvalue⟩

theorem operandType_eq (E : Extends s u) {ty : Ty} (h : s.func.operandType operand = .ok ty) :
    u.func.operandType operand = .ok ty := by
  cases operand with
  | const c => exact h
  | value x =>
    rw [operandType_value_eq_ok] at h ⊢
    obtain ⟨info, hvalue, rfl⟩ := Option.map_eq_some_iff.mp h
    rw [valueType?, E _ _ hvalue, Option.map_some]

theorem made (E : Extends s u) (h : s.func.Made place kind operand) :
    u.func.Made place kind operand := by
  obtain ⟨x, hoperand, hx, hkind⟩ := h
  exact ⟨x, hoperand, hx, E.kind?_eq hkind⟩

theorem asVoidPtr (E : Extends s u) (h : s.func.AsVoidPtr place operand result) :
    u.func.AsVoidPtr place operand result :=
  h.map E.operandType_eq E.made

end Splice.Extends

theorem Function.Made.imp {kind : InstKind} {operand : Operand}
    (hplace : ∀ x info, place x → f.value? x = some info → place' x)
    (h : f.Made place kind operand) :
    f.Made place' kind operand := by
  obtain ⟨x, hoperand, hx, hkind⟩ := h
  obtain ⟨inst, ty, -, hvalue⟩ := value?_of_kind? hkind
  exact ⟨x, hoperand, hplace x _ hx hvalue, hkind⟩

theorem Function.AsVoidPtr.imp {operand result : Operand}
    (hplace : ∀ x info, place x → f.value? x = some info → place' x)
    (h : f.AsVoidPtr place operand result) : f.AsVoidPtr place' operand result :=
  h.map (fun h => h) fun hmade => hmade.imp hplace

/-! ### Opening a splice -/

namespace Function

open Edit

variable {α : Type} {body : Edit Splice α} {a : α}

theorem locate_eq_ok_iff {place : BlockId × Nat} :
    f.locate point = .ok place ↔ f.locate? point = some place := by
  rw [locate]
  cases f.locate? point <;> simp

theorem runs_splice :
    (splice point body).Runs f a g ↔
      ∃ b i u, f.locate? point = some (b, i) ∧ body.Runs ⟨f, b, i⟩ a u ∧ u.func = g := by
  simp only [splice, runs_bind, runs_get, runs_ofExcept, runs_set, locate_eq_ok_iff]
  constructor
  · rintro ⟨_, _, ⟨rfl, rfl⟩, ⟨b, i⟩, _, ⟨hlocate, rfl⟩, _, _, rfl, houtcome, rfl⟩
    exact ⟨b, i, _, hlocate, Prod.ext houtcome rfl, rfl⟩
  · rintro ⟨b, i, u, hlocate, hbody, rfl⟩
    refine ⟨f, f, ⟨rfl, rfl⟩, (b, i), f, ⟨hlocate, rfl⟩, ⟨⟩, _, rfl, ?_, ?_⟩
    all_goals rw [hbody]

end Function

end PointerGuard
