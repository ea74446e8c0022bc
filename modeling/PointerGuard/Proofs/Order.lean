import Mathlib.Data.List.DropRight
import PointerGuard.Proofs.Growth

/-!
# Order of instructions in a block

Where an instruction stands is said by what it precedes, which growth does not change. A value
*trails* an instruction if it follows it and no instruction of the program comes between them; a
value is *early* if it stands at the top of the first block, before the whole program.
-/

namespace PointerGuard.Function

variable {f g : Function} {x y z v : ValueId} {b c : BlockId} {t : RoutineTable}
  {p : Routine → Prop} {after before new rest front top l : List ValueId}

/-- One value is listed before another in the same block. -/
def Precedes (f : Function) (x y : ValueId) : Prop :=
  ∃ b, y ∈ f.instsOf b ∧ x ∈ (f.instsOf b).takeWhile (· ≠ y)

/-- A value that is not of the program follows another, with no instruction of the program between
them. -/
structure Trails (f : Function) (v x : ValueId) : Prop where
  precedes : f.Precedes v x
  not_program : f.isProgramInst x = false
  next : ∀ y, f.isProgramInst y → f.Precedes v y → f.Precedes x y

/-- A value stands at the top of the first block, before all instructions of the program. -/
structure Early (f : Function) (x : ValueId) : Prop where
  mem : x ∈ f.instsOf ⟨0⟩
  not_program : f.isProgramInst x = false
  next : ∀ y, f.isProgramInst y → y ∈ f.instsOf ⟨0⟩ → f.Precedes x y

/-- Selecting elements and cutting a list off at one of them can be done in either order. -/
theorem takeWhile_ne_filter (keep : ValueId → Bool) (hy : keep y = true) (l : List ValueId) :
    (l.filter keep).takeWhile (· ≠ y) = (l.takeWhile (· ≠ y)).filter keep := by
  induction l with
  | nil => rfl
  | cons a l ih =>
    by_cases hay : a = y
    · subst hay
      simp [hy]
    · grind [List.filter_cons_of_pos, List.takeWhile_cons_of_pos, List.filter_cons_of_neg]

/-- A block is cut off at an instruction where the instruction stands. -/
theorem Tidy.takeWhile_ne (T : f.Tidy) (h : f.instsOf b = before ++ y :: after) :
    (f.instsOf b).takeWhile (· ≠ y) = before := by
  have hnodup := T.nodup b
  rw [h] at hnodup ⊢
  have hbefore : ∀ a ∈ before, decide (a ≠ y) = true := fun a ha => by grind
  rw [List.takeWhile_append_of_pos hbefore]
  simp

namespace Precedes

theorem mem_both (h : f.Precedes x y) : ∃ b, x ∈ f.instsOf b ∧ y ∈ f.instsOf b := by
  obtain ⟨b, hy, hx⟩ := h
  exact ⟨b, (List.takeWhile_sublist _).subset hx, hy⟩

/-- In a list in which `y` comes right after some others, these are what precedes it. -/
theorem of_append (T : f.Tidy) (h : f.instsOf b = before ++ y :: after) :
    f.Precedes x y ↔ x ∈ before := by
  have hcut := T.takeWhile_ne h
  have hy : y ∈ f.instsOf b := by rw [h]; simp
  constructor
  · rintro ⟨c, hyc, hx⟩
    obtain rfl := T.block_eq hyc hy
    rwa [hcut] at hx
  · intro hx
    exact ⟨b, hy, hcut ▸ hx⟩

/-- What stands in the front part of a block precedes what stands in the rest. -/
theorem of_mem_append (T : f.Tidy) (h : f.instsOf b = front ++ rest) (hx : x ∈ front)
    (hy : y ∈ rest) : f.Precedes x y := by
  obtain ⟨before, after, rfl⟩ := List.append_of_mem hy
  have hsplit : f.instsOf b = (front ++ before) ++ y :: after := by rw [h, List.append_assoc]
  exact (of_append T hsplit).mpr (List.mem_append_left _ hx)

theorem not_of_mem_append (T : f.Tidy) (h : f.instsOf b = front ++ rest) (hx : x ∈ rest)
    (hy : y ∈ front) : ¬f.Precedes x y := by
  obtain ⟨before, after, rfl⟩ := List.append_of_mem hy
  have hsplit : f.instsOf b = before ++ y :: (after ++ rest) := by
    rw [h, List.append_assoc, List.cons_append]
  rw [of_append T hsplit]
  intro hbefore
  have hnodup := h ▸ T.nodup b
  exact (List.nodup_append.mp hnodup).2.2 x (List.mem_append_left _ hbefore) x hx rfl

theorem irrefl : ¬f.Precedes x x := by
  rintro ⟨b, -, hx⟩
  simpa using List.mem_takeWhile_imp hx

theorem asymm (T : f.Tidy) (hxy : f.Precedes x y) : ¬f.Precedes y x := by
  obtain ⟨b, -, hy⟩ := hxy.mem_both
  obtain ⟨before, after, hsplit⟩ := List.append_of_mem hy
  exact not_of_mem_append T hsplit (.head _) ((of_append T hsplit).mp hxy)

theorem total (T : f.Tidy) (hx : x ∈ f.instsOf b) (hy : y ∈ f.instsOf b) (hne : x ≠ y) :
    f.Precedes x y ∨ f.Precedes y x := by
  obtain ⟨before, after, hsplit⟩ := List.append_of_mem hy
  rw [hsplit, List.mem_append, List.mem_cons] at hx
  rcases hx with hx | rfl | hx
  · exact .inl ((of_append T hsplit).mpr hx)
  · exact absurd rfl hne
  · exact .inr (of_mem_append T (by rw [hsplit, List.append_cons]) (by simp) hx)

end Precedes

/-- Marked values that stand right behind an instruction trail it. -/
theorem Trails.of_append (T : f.Tidy) (h : f.instsOf b = before ++ v :: new ++ rest) (hx : x ∈ new)
    (hnew : ∀ z ∈ new, f.isProgramInst z = false) : f.Trails v x := by
  have hfront : f.instsOf b = (before ++ [v]) ++ (new ++ rest) := by rw [h]; simp
  refine ⟨.of_mem_append T hfront (by simp) (List.mem_append_left _ hx), hnew x hx,
    fun y hy hprec => ?_⟩
  obtain ⟨c, hvc, hyc⟩ := hprec.mem_both
  obtain rfl := T.block_eq (b := b) (by rw [h]; simp) hvc
  have hyrest : y ∈ rest := by
    rw [h, List.append_assoc, List.mem_append, List.cons_append, List.mem_cons,
      List.mem_append] at hyc
    rcases hyc with hy' | rfl | hy' | hy'
    · exact absurd hprec
        (Precedes.not_of_mem_append T (by rw [h, List.append_assoc]) (by simp) hy')
    · exact absurd hprec Precedes.irrefl
    · rw [hnew y hy'] at hy
      cases hy
    · exact hy'
  exact .of_mem_append T h (by simp [hx]) hyrest

/-- Marked values that stand in front of the program in the first block are early. -/
theorem Early.of_append (T : f.Tidy) (h : f.instsOf ⟨0⟩ = top ++ new ++ rest) (hx : x ∈ new)
    (htop : ∀ z ∈ top, f.isProgramInst z = false) (hnew : ∀ z ∈ new, f.isProgramInst z = false) :
    f.Early x := by
  refine ⟨by rw [h]; simp [hx], hnew x hx, fun y hy hmem => ?_⟩
  have hyrest : y ∈ rest := by grind
  exact .of_mem_append T h (by simp [hx]) hyrest

section Edges

variable {phi : ValueId} {edges : List (Operand × BlockId)}

theorem precedes_withEdges : (f.withEdges phi edges).Precedes x y ↔ f.Precedes x y := by
  simp only [Precedes, instsOf_withEdges]

theorem Trails.withEdges (h : f.Trails v x) : (f.withEdges phi edges).Trails v x := by
  refine ⟨precedes_withEdges.mpr h.precedes, ?_, fun y hy hprec => ?_⟩
  · rw [isProgramInst_withEdges, h.not_program]
  · rw [isProgramInst_withEdges] at hy
    exact precedes_withEdges.mpr (h.next y hy (precedes_withEdges.mp hprec))

theorem Early.withEdges (h : f.Early x) : (f.withEdges phi edges).Early x := by
  refine ⟨by rw [instsOf_withEdges]; exact h.mem, ?_, fun y hy hmem => ?_⟩
  · rw [isProgramInst_withEdges, h.not_program]
  · rw [isProgramInst_withEdges] at hy
    rw [instsOf_withEdges] at hmem
    exact precedes_withEdges.mpr (h.next y hy hmem)

end Edges

namespace Grows

section

variable (G : Grows t p f g)

include G

/-- Growth does not change the order of what was there before. -/
theorem precedes_iff (T : f.Tidy) (hx : x.index < f.values.size) (hy : y.index < f.values.size) :
    g.Precedes x y ↔ f.Precedes x y := by
  refine exists_congr fun b => ?_
  have hkeep : y ∈ g.instsOf b ↔ y ∈ f.instsOf b := by
    rw [← G.filter_instsOf T b]
    simp [hy]
  rw [hkeep, ← G.filter_instsOf T b, takeWhile_ne_filter _ (by simpa using hy)]
  simp [hx]

theorem isProgramInst_eq (hx : x.index < f.values.size) : g.isProgramInst x = f.isProgramInst x :=
  isProgramInst_congr (G.value?_eq hx)

theorem trails (T : f.Tidy) (h : f.Trails v x) : g.Trails v x := by
  obtain ⟨b, hv, hx⟩ := h.precedes.mem_both
  have hv' := T.index_lt hv
  have hx' := T.index_lt hx
  refine ⟨(G.precedes_iff T hv' hx').mpr h.precedes, ?_, fun y hy hprec => ?_⟩
  · rw [G.isProgramInst_eq hx', h.not_program]
  · obtain ⟨hy', hprogram⟩ := G.isProgramInst_iff.mp hy
    exact (G.precedes_iff T hx' hy').mpr
      (h.next y hprogram ((G.precedes_iff T hv' hy').mp hprec))

theorem early (T : f.Tidy) (h : f.Early x) : g.Early x := by
  have hx' := T.index_lt h.mem
  refine ⟨(G.instsOf_sublist T _).subset h.mem, ?_, fun y hy hmem => ?_⟩
  · rw [G.isProgramInst_eq hx', h.not_program]
  · obtain ⟨hy', hprogram⟩ := G.isProgramInst_iff.mp hy
    rw [G.precedes_iff T hx' hy']
    refine h.next y hprogram ?_
    rw [← G.filter_instsOf T, List.mem_filter]
    exact ⟨hmem, by simpa using hy'⟩

end

end Grows

/-! ### Gaps -/

/-- What stands between an instruction and the last instruction of the program before it, or the
start of the block. -/
def gapBefore (f : Function) (b : BlockId) (y : ValueId) : List ValueId :=
  ((f.instsOf b).takeWhile (· ≠ y)).rtakeWhile (!f.isProgramInst ·)

/-- In front of a gap there is an instruction of the program, or nothing. -/
theorem gapBefore_split (T : f.Tidy) (hsplit : f.instsOf b = before ++ y :: after) :
    (∀ z ∈ f.gapBefore b y, f.isProgramInst z = false) ∧
      ∃ front, before = front ++ f.gapBefore b y ∧
        (front = [] ∨ ∃ front' z, front = front' ++ [z] ∧ f.isProgramInst z) := by
  rw [gapBefore, T.takeWhile_ne hsplit]
  refine ⟨fun z hz => ?_, before.rdropWhile (!f.isProgramInst ·),
    (List.rdropWhile_append_rtakeWhile ..).symm, ?_⟩
  · have := List.mem_rtakeWhile_imp hz
    rwa [Bool.not_eq_true'] at this
  by_cases hnil : before.rdropWhile (!f.isProgramInst ·) = []
  · exact .inl hnil
  · refine .inr ⟨_, _, (List.dropLast_concat_getLast hnil).symm, ?_⟩
    have hlast := List.rdropWhile_last_not _ before hnil
    rwa [Bool.not_eq_true, Bool.not_eq_false'] at hlast

theorem mem_gapBefore_iff (T : f.Tidy) (hy : y ∈ f.instsOf b) :
    x ∈ f.gapBefore b y ↔ f.Precedes x y ∧ f.isProgramInst x = false ∧
      ∀ z, f.isProgramInst z → f.Precedes z y → f.Precedes z x := by
  obtain ⟨before, after, hsplit⟩ := List.append_of_mem hy
  obtain ⟨hgap, front, rfl, hfront⟩ := gapBefore_split T hsplit
  rw [Precedes.of_append T hsplit]
  constructor
  · grind [Precedes.of_append, Precedes.of_mem_append, List.append_assoc]
  · rintro ⟨hx, hprogram, hnext⟩
    refine (List.mem_append.mp hx).resolve_left fun hx => ?_
    rcases hfront with rfl | ⟨front', z, rfl, hz⟩
    · cases hx
    · -- the instruction of the program in front of the gap would have to precede `x`
      have hprec := hnext z hz ((Precedes.of_append T hsplit).mpr (by simp))
      have hx' : x ∈ front' := by grind
      have hcut : f.instsOf b = front' ++ (z :: (f.gapBefore b y ++ y :: after)) := by
        rw [hsplit]
        simp
      exact Precedes.not_of_mem_append T hcut (.head _) hx' hprec

theorem Grows.mem_gapBefore (G : Grows t p f g) (T : f.Tidy) (hy : y ∈ f.instsOf b)
    (hx : x ∈ f.gapBefore b y) : x ∈ g.gapBefore b y := by
  have hy' := (G.instsOf_sublist T b).subset hy
  rw [mem_gapBefore_iff T hy] at hx
  obtain ⟨hprec, hprogram, hnext⟩ := hx
  obtain ⟨c, hxc, hyc⟩ := hprec.mem_both
  have hxlt := T.index_lt hxc
  have hylt := T.index_lt hyc
  rw [mem_gapBefore_iff (G.tidy T) hy', G.precedes_iff T hxlt hylt, G.isProgramInst_eq hxlt]
  refine ⟨hprec, hprogram, fun z hz hprec => ?_⟩
  obtain ⟨hzlt, hzprogram⟩ := G.isProgramInst_iff.mp hz
  exact (G.precedes_iff T hzlt hxlt).mpr
    (hnext z hzprogram ((G.precedes_iff T hzlt hylt).mp hprec))

theorem rtakeWhile_congr {keep keep' : ValueId → Bool} (h : ∀ x ∈ l, keep x = keep' x) :
    l.rtakeWhile keep = l.rtakeWhile keep' := by
  induction l using List.reverseRecOn with
  | nil => rfl
  | append_singleton l x ih => grind [List.rtakeWhile_concat]

/-- The gap in front of an instruction is the one there was before, with what has been added. -/
theorem Grows.filter_gapBefore (G : Grows t p f g) (T : f.Tidy) (hy : y ∈ f.instsOf b) :
    (g.gapBefore b y).filter (·.index < f.values.size) = f.gapBefore b y := by
  obtain ⟨_, hinst⟩ := T.listed hy
  have hylt := (index_lt_of_inst? hinst).2
  -- instructions of the program are old, so the gap ends at the same one
  have hkeep : ∀ x : ValueId, (!decide (x.index < f.values.size) || !g.isProgramInst x) =
      !g.isProgramInst x := by
    intro x
    by_cases hx : x.index < f.values.size
    · simp [hx]
    · simp [G.not_isProgramInst (Nat.not_lt.mp hx)]
  have hcongr : ∀ x ∈ (f.instsOf b).takeWhile (· ≠ y),
      (!g.isProgramInst x) = !f.isProgramInst x := by
    intro x hx
    rw [G.isProgramInst_eq (T.index_lt (List.takeWhile_subset _ hx))]
  rw [gapBefore, List.rtakeWhile, List.filter_reverse]
  have hfilter := List.takeWhile_filter (p := fun x : ValueId => decide (x.index < f.values.size))
    (q := (!g.isProgramInst ·)) (l := ((g.instsOf b).takeWhile (· ≠ y)).reverse)
  simp only [hkeep] at hfilter
  rw [← hfilter, List.filter_reverse, ← takeWhile_ne_filter _ (by simpa using hylt),
    G.filter_instsOf T]
  exact rtakeWhile_congr hcongr

/-- Different instructions of the program have nothing in common before them. -/
theorem eq_of_mem_gapBefore (T : f.Tidy) (hy : y ∈ f.instsOf b) (hz : z ∈ f.instsOf c)
    (hy' : f.isProgramInst y) (hz' : f.isProgramInst z) (hxy : x ∈ f.gapBefore b y)
    (hxz : x ∈ f.gapBefore c z) : y = z := by
  obtain ⟨hprec, -, hnext⟩ := (mem_gapBefore_iff T hy).mp hxy
  obtain ⟨hprec', -, hnext'⟩ := (mem_gapBefore_iff T hz).mp hxz
  by_contra hne
  -- whichever comes first would have to come before `x` as well
  have hb : b = c := by grind [Precedes.mem_both, Tidy.block_eq]
  rcases Precedes.total T hy (hb ▸ hz) hne with h | h
  · exact hprec.asymm T (hnext' y hy' h)
  · exact hprec'.asymm T (hnext z hz' h)

/-- What is put directly in front of an instruction comes last in the gap before it. -/
theorem gapBefore_eq_append (T : f.Tidy) (T' : g.Tidy) (hsplit : f.instsOf b = before ++ y :: after)
    (hsplit' : g.instsOf b = before ++ new ++ y :: after)
    (hold : ∀ x ∈ before, g.isProgramInst x = f.isProgramInst x)
    (hnew : ∀ x ∈ new, g.isProgramInst x = false) : g.gapBefore b y = f.gapBefore b y ++ new := by
  have hcongr : before.rtakeWhile (!g.isProgramInst ·) = before.rtakeWhile (!f.isProgramInst ·) :=
    rtakeWhile_congr fun x hx => by rw [hold x hx]
  rw [gapBefore, gapBefore, T.takeWhile_ne hsplit, T'.takeWhile_ne hsplit', ← hcongr]
  clear hsplit hsplit'
  induction new using List.reverseRecOn with
  | nil => rw [List.append_nil, List.append_nil]
  | append_singleton new x ih => grind [List.append_assoc, List.rtakeWhile_concat_pos]

end PointerGuard.Function
