import PointerGuard.Proofs.Addresses
import PointerGuard.Proofs.NaturalLayout

/-!
# Paths of indices

A path of indices is followed for the type and for the offset it leads to. The offset is there if
the type is, as long as the numbers on the way are signed words. A path that stays inside a value
leads to something inside it, and two paths in a row lead where the joined path does.
-/

namespace PointerGuard.Layout

/-- Is every index that of an element or of a field? -/
def inside : Ty → List Int → Bool
  | _, [] => true
  | .array elem len, .ofNat index :: rest => index < len && inside elem rest
  | .struct fields, .ofNat index :: rest =>
    match fields[index]? with
    | some field => inside field rest
    | none => false
  | _, _ :: _ => false

/-- The numbers that are computed on the way into a value of type `t`, from `offset` on: the sizes
of elements, the distances of steps over elements, and the sums. -/
def walkNumbers (w : PointerWidth) : Ty → Int → List Int → List Int
  | .array elem _, offset, index :: rest =>
    let step := index * size w elem
    size w elem :: step :: (offset + step) :: walkNumbers w elem (offset + step) rest
  | .struct fields, offset, .ofNat index :: rest =>
    match fieldOffset? w fields index, fields[index]? with
    | some start, some field => (offset + start) :: walkNumbers w field (offset + start) rest
    | _, _ => []
  | _, _, _ => []

/-- The numbers that are computed on a path from a pointer. -/
def pathNumbers (w : PointerWidth) (pointee : Ty) : List Int → List Int
  | [] => []
  | first :: rest =>
    size w pointee :: first * size w pointee :: walkNumbers w pointee (first * size w pointee) rest

variable {w : PointerWidth} {t u : Ty} {path more : List Int} {offset d e : Int}

theorem isSome_signedWord?_bind {α : Type} {n : Int} {f : Int → Option α} :
    ((signedWord? n).bind f).isSome ↔ (signedWord? n).isSome ∧ (f n).isSome := by
  rw [signedWord?]
  split <;> simp

/-! ### Types and offsets -/

/-- A path has an offset if it has a type and no number on the way is too large. The place of a
field is smaller than the structure. -/
theorem isSome_walkOffset? (hsize : size w t < 2 ^ 63) :
    (walkOffset? w t offset path).isSome ↔
      (walkType? t (path.map some)).isSome ∧
        ∀ n ∈ walkNumbers w t offset path, (signedWord? n).isSome := by
  induction path generalizing t offset with
  | nil => cases t <;> simp [walkOffset?, walkType?, walkNumbers]
  | cons index rest ih =>
    cases t with
    | array elem len =>
      simp only [walkOffset?, walkNumbers, List.map_cons, walkType?, Option.bind_eq_bind,
        isSome_signedWord?_bind]
      by_cases hstride : (signedWord? (size w elem)).isSome
      · have helem : size w elem < 2 ^ 63 := by
          simp only [signedWord?, Option.isSome_ite] at hstride
          omega
        constructor
        · grind
        · grind
      · simp [hstride]
    | struct fields =>
      cases index with
      | negSucc => simp [walkOffset?, walkType?]
      | ofNat index =>
        cases hfield : fields[index]? with
        | none => simp [walkOffset?, walkType?, hfield]
        | some field =>
          obtain ⟨start, hstart, -⟩ : ∃ start, fieldOffset? w fields index = some start ∧ _ :=
            fieldOffsetFrom?_eq hfield
          have hend := end_le_size_struct hstart hfield
          have hwalk : (walkOffset? w (.struct fields) offset (.ofNat index :: rest)).isSome ↔
              (signedWord? (offset + start)).isSome ∧
                (walkOffset? w field (offset + start) rest).isSome := by
            rw [walkOffset?, hstart, Option.bind_some, signedWord?_of_lt (by omega),
              Option.bind_eq_bind, Option.bind_some, Option.bind_eq_bind, isSome_signedWord?_bind,
              hfield, Option.bind_some]
          rw [hwalk, ih (by omega)]
          simp only [walkNumbers, List.map_cons, walkType?, Option.bind_eq_bind, hstart, hfield,
            Option.bind_some, List.forall_mem_cons]
          exact and_left_comm
    | _ => simp [walkOffset?, walkType?]

/-! ### One path behind another -/

theorem walkType?_append (is js : List (Option Int)) :
    walkType? t (is ++ js) = (walkType? t is).bind fun u => walkType? u js := by
  induction is generalizing t with
  | nil => cases t <;> rfl
  | cons index rest ih =>
    cases t with
    | array elem len => exact ih
    | struct fields =>
      rcases index with _ | index | index
      · rfl
      · rw [List.cons_append, walkType?, walkType?]
        cases fields[index]? with
        | none => rfl
        | some field => exact ih
      · rfl
    | _ => rfl

theorem walkDistance?_append (htype : walkType? t (path.map some) = some u)
    (hd : walkDistance? w t path = some d) (he : walkDistance? w u more = some e) :
    walkDistance? w t (path ++ more) = some (d + e) := by
  fun_induction walkDistance? w t path generalizing d with
  | case1 t =>
    cases htype
    cases hd
    simpa using he
  | case2 elem len index rest ih =>
    obtain ⟨d', hd', rfl⟩ := Option.map_eq_some_iff.mp hd
    rw [List.cons_append, walkDistance?, ih htype hd', Option.map_some, Int.add_assoc]
  | case3 fields index rest ih =>
    simp only [Option.bind_eq_bind, Option.bind_eq_some_iff, Option.map_eq_some_iff] at hd
    obtain ⟨start, hstart, field, hfield, d', hd', rfl⟩ := hd
    simp only [List.map_cons, walkType?, hfield, Option.bind_eq_bind, Option.bind_some] at htype
    simp only [List.cons_append, walkDistance?, hstart, hfield, Option.bind_eq_bind,
      Option.bind_some, ih field htype hd', Option.map_some, Int.add_assoc]
  | case4 => cases hd

/-! ### Paths inside a value -/

private theorem walk_inside (start : Nat) (h : inside t path) (hsize : start + size w t < 2 ^ 63) :
    ∃ u, ∃ off : Nat, walkType? t (path.map some) = some u ∧
      walkOffset? w t start path = some ((start + off : Nat) : Int) ∧
        off + size w u ≤ size w t := by
  fun_induction inside t path generalizing start with
  | case1 t => exact ⟨t, 0, rfl, rfl, by omega⟩
  | case2 elem len index rest ih =>
    obtain ⟨hindex, hrest⟩ := Bool.and_eq_true_iff.mp h
    have hend := end_le_size_array (w := w) (t := elem) (by omega) (of_decide_eq_true hindex)
    obtain ⟨u, off, htype, hoff, hinside⟩ := ih (start + index * size w elem) hrest (by omega)
    refine ⟨u, index * size w elem + off, htype, ?_, by omega⟩
    rw [walkOffset?_array (by omega), hoff, Nat.add_assoc]
  | case3 fields index rest field hfield ih =>
    obtain ⟨first, hfirst, -⟩ : ∃ first, fieldOffset? w fields index = some first ∧ _ :=
      fieldOffsetFrom?_eq hfield
    have hend := end_le_size_struct hfirst hfield
    obtain ⟨u, off, htype, hoff, hinside⟩ := ih (start + first) h (by omega)
    refine ⟨u, first + off, ?_, ?_, by omega⟩
    · simpa [walkType?, hfield] using htype
    · rw [walkOffset?_struct hfirst hfield (by omega), hoff, Nat.add_assoc]
  | case4 => cases h
  | case5 => cases h

/-! ### Paths from pointers -/

/-- What is known of the paths from a pointer. A path that starts with 0 and stays inside the value
leads to something inside. Two paths in a row lead where one path does that joins them. A path has
an offset if it has a type and no number on the way is too large. -/
theorem pathOffset?_sound (w : PointerWidth) (t : Ty) (hsize : size w t < 2 ^ 63) :
    (∀ path, inside t path → ∃ u off, pathType? t ((0 :: path).map some) = some (.ptr u) ∧
      pathOffset? w t (0 :: path) = some off ∧ 0 ≤ off ∧ off + size w u ≤ size w t) ∧
    (∀ first path more u a b c, pathOffset? w t (first :: path) = some a →
      pathType? t ((first :: path).map some) = some (.ptr u) →
      pathOffset? w u (0 :: more) = some b → pathOffset? w t (first :: (path ++ more)) = some c →
      c = a + b ∧ pathType? t ((first :: (path ++ more)).map some) =
        pathType? u ((0 :: more).map some)) ∧
    ∀ path, (pathOffset? w t path).isSome ↔ (pathType? t (path.map some)).isSome ∧
      ∀ n ∈ pathNumbers w t path, (signedWord? n).isSome := by
  refine ⟨fun path h => ?_, fun first path more u a b c ha hu hb hc => ?_, fun path => ?_⟩
  · obtain ⟨u, off, htype, hoff, hinside⟩ := walk_inside (w := w) 0 h (by omega)
    refine ⟨u, off, ?_, ?_, by omega, by omega⟩
    · rw [List.map_cons, pathType?, htype, Option.map_some]
    · rw [pathOffset?_zero hsize, ← Int.natCast_zero, hoff, Nat.zero_add]
  · simp only [List.map_cons, pathType?, Option.map_eq_some_iff, Ty.ptr.injEq,
      exists_eq_right] at hu
    have hjoined := walkDistance?_append hu (walkDistance?_of_pathOffset? ha)
      (walkDistance?_of_pathOffset? hb)
    rw [walkDistance?_of_pathOffset? hc, Option.some.injEq, Int.zero_mul] at hjoined
    refine ⟨by omega, ?_⟩
    rw [List.map_cons, pathType?, List.map_append, walkType?_append, hu]
    rfl
  · cases path with
    | nil => simp [pathOffset?, pathType?]
    | cons first rest =>
      simp only [pathOffset?, pathType?, pathNumbers, List.map_cons, Option.bind_eq_bind,
        isSome_signedWord?_bind, List.forall_mem_cons, Option.isSome_map, isSome_walkOffset? hsize]
      constructor
      · rintro ⟨hstride, hstart, htype, hrest⟩
        exact ⟨htype, hstride, hstart, hrest⟩
      · rintro ⟨htype, hstride, hstart, hrest⟩
        exact ⟨hstride, hstart, htype, hrest⟩

theorem pathOffset?_sound_records :
    size .bits64 (.struct records) < 2 ^ 63 ∧ inside (.struct records) [1, 2, 1] ∧
      pathOffset? .bits64 (.struct records) [0, 1, 2, 1] = some 80 ∧
      ∃ u, pathType? (.struct records) [some 0, some 1, some 2, some 1] = some (.ptr u) ∧
        80 + size .bits64 u ≤ size .bits64 (.struct records) := by
  obtain ⟨hinside, -⟩ := pathOffset?_sound .bits64 (.struct records) (by decide)
  obtain ⟨u, off, htype, hoff, -, hend⟩ := hinside [1, 2, 1] (by decide)
  have hvalue : pathOffset? .bits64 (.struct records) [0, 1, 2, 1] = some 80 := by decide
  cases hoff.symm.trans hvalue
  exact ⟨by decide, by decide, hvalue, u, htype, by omega⟩

end PointerGuard.Layout
