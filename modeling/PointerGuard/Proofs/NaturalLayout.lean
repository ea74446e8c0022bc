import Mathlib.Order.Bounds.Defs
import PointerGuard.Proofs.Initializers

/-!
# Layouts are natural

Values are laid out as C compilers do it. Every alignment is a power of two up to 8 and divides the
size, a field starts at the first place that its alignment allows, and everything inside an aligned
value is aligned. All this rests on sizes being exact: that of an array is cut off at the largest
word, which is odd. A structure that needs more than a word counts has no size, and neither has any
type that it is a part of, even an array without elements. There is no other way to fail.
-/

namespace PointerGuard

/-! ### Exact sizes -/

namespace Ty

mutual

/-- The types that values of a type are made of: the type itself and those of its elements or
fields. What a pointer points to is no part of the pointer. -/
def parts : Ty → List Ty
  | .array elem len => .array elem len :: elem.parts
  | .struct fields => .struct fields :: partsOfAll fields
  | t => [t]

/-- The types that the members of a list are made of. -/
def partsOfAll : List Ty → List Ty
  | [] => []
  | t :: ts => t.parts ++ partsOfAll ts

end

theorem mem_parts_self (t : Ty) : t ∈ t.parts := by
  cases t <;> simp [parts]

theorem mem_partsOfAll {u : Ty} {ts : List Ty} : u ∈ partsOfAll ts ↔ ∃ t ∈ ts, u ∈ t.parts := by
  induction ts with
  | nil => simp [partsOfAll]
  | cons t ts ih => simp [partsOfAll, ih]

end Ty

namespace Layout

mutual

/-- The size of a type, in bytes, with nothing cut off. -/
def exactSize (w : PointerWidth) : Ty → Nat
  | .array elem len => exactSize w elem * len
  | .struct fields => alignUp (exactEnd w 0 fields) (maxAlign w fields)
  | t => size w t

/-- Where the last of some fields ends, with nothing cut off. -/
def exactEnd (w : PointerWidth) (offset : Nat) : List Ty → Nat
  | [] => offset
  | t :: ts => exactEnd w (alignUp offset (align w t) + exactSize w t) ts

end

/-- The exact sizes of a type and of all its parts are words. -/
def Fits (w : PointerWidth) (t : Ty) : Prop := ∀ u ∈ t.parts, exactSize w u ≤ maxWord

instance (w : PointerWidth) (t : Ty) : Decidable (Fits w t) :=
  inferInstanceAs (Decidable (∀ u ∈ t.parts, exactSize w u ≤ maxWord))

variable {w : PointerWidth} {t u : Ty} {ts : List Ty} {offset start k len n m : Nat}

theorem Fits.elem (h : Fits w (.array t len)) : Fits w t :=
  fun u hu => h u (by rw [Ty.parts]; exact .tail _ hu)

theorem Fits.field (h : Fits w (.struct ts)) (ht : t ∈ ts) : Fits w t :=
  fun u hu => h u (by rw [Ty.parts]; exact .tail _ (Ty.mem_partsOfAll.mpr ⟨t, ht, hu⟩))

mutual

theorem size_eq_exactSize : ∀ {t : Ty}, Fits w t → size w t = exactSize w t
  | .array elem len, h => by
    have hexact := h _ (Ty.mem_parts_self _)
    rw [exactSize] at hexact ⊢
    rw [size, size_eq_exactSize h.elem, Nat.min_eq_left hexact]
  | .struct fields, h => by
    rw [size, exactSize, fieldsEnd_eq_exactEnd 0 fun t ht => h.field ht]
  | .void, _ | .int _, _ | .float, _ | .double, _ | .ptr _, _ | .func .., _ => by simp [exactSize]

theorem fieldsEnd_eq_exactEnd : ∀ {ts : List Ty} (offset : Nat), (∀ t ∈ ts, Fits w t) →
    fieldsEnd w offset ts = exactEnd w offset ts
  | [], _, _ => by rw [fieldsEnd, exactEnd]
  | t :: ts, offset, h => by
    obtain ⟨ht, hts⟩ := List.forall_mem_cons.mp h
    rw [fieldsEnd, exactEnd, size_eq_exactSize ht, fieldsEnd_eq_exactEnd _ hts]

end

theorem size_array_of_fits (h : Fits w (.array t len)) :
    size w (.array t len) = len * size w t := by
  rw [size_eq_exactSize h, size_eq_exactSize h.elem, exactSize, Nat.mul_comm]

/-! ### Alignments -/

/-- An alignment is one of the first four powers of two. -/
def IsAlignment (n : Nat) : Prop := n = 1 ∨ n = 2 ∨ n = 4 ∨ n = 8

theorem IsAlignment.pos (h : IsAlignment n) : 0 < n := by
  rcases h with rfl | rfl | rfl | rfl <;> decide

theorem IsAlignment.max (hm : IsAlignment m) (hn : IsAlignment n) : IsAlignment (max m n) := by
  rcases Nat.le_total m n with hle | hle
  · rwa [Nat.max_eq_right hle]
  · rwa [Nat.max_eq_left hle]

/-- Of two alignments, the smaller one divides the larger one. -/
theorem IsAlignment.dvd_of_le (hm : IsAlignment m) (hn : IsAlignment n) (h : m ≤ n) : m ∣ n := by
  rcases hm with rfl | rfl | rfl | rfl <;> rcases hn with rfl | rfl | rfl | rfl <;>
    first | decide | omega

theorem exists_ceilPowerOfTwo_eq (n : Nat) : ∃ k, ceilPowerOfTwo n = 2 ^ k := by
  rw [ceilPowerOfTwo]
  split
  · exact ⟨0, rfl⟩
  · exact ⟨_, Nat.one_shiftLeft _⟩

/-- A power of two that is cut off at 8 is an alignment, and divides the power. -/
theorem isAlignment_min_pow (k : Nat) : IsAlignment (min (2 ^ k) 8) ∧ min (2 ^ k) 8 ∣ 2 ^ k := by
  rcases Nat.lt_or_ge k 3 with hk | hk
  · have hsmall : k = 0 ∨ k = 1 ∨ k = 2 := by omega
    rcases hsmall with rfl | rfl | rfl <;> exact ⟨by simp [IsAlignment], by decide⟩
  · have hpow : 2 ^ 3 ∣ 2 ^ k := Nat.pow_dvd_pow 2 hk
    have hle : 8 ≤ 2 ^ k := Nat.le_of_dvd (Nat.two_pow_pos k) hpow
    rw [Nat.min_eq_right hle]
    exact ⟨by simp [IsAlignment], hpow⟩

private theorem isAlignment_bytes (w : PointerWidth) : IsAlignment w.bytes := by
  cases w <;> simp [IsAlignment, PointerWidth.bytes]

mutual

theorem isAlignment_align (w : PointerWidth) : ∀ t : Ty, IsAlignment (align w t)
  | .int bits => by
    obtain ⟨k, hk⟩ := exists_ceilPowerOfTwo_eq ((bits + 7) / 8)
    rw [align, intSize, hk]
    exact (isAlignment_min_pow k).1
  | .ptr _ => isAlignment_bytes w
  | .array elem _ => isAlignment_align w elem
  | .struct fields => isAlignment_maxAlign w fields
  | .void | .func .. | .float | .double => by simp [IsAlignment, align]

theorem isAlignment_maxAlign (w : PointerWidth) : ∀ ts : List Ty, IsAlignment (maxAlign w ts)
  | [] => by simp [IsAlignment, maxAlign]
  | t :: ts => (isAlignment_align w t).max (isAlignment_maxAlign w ts)

end

private theorem align_le_maxAlign (h : t ∈ ts) : align w t ≤ maxAlign w ts := by
  induction ts with
  | nil => cases h
  | cons t' ts ih =>
    rcases List.mem_cons.mp h with rfl | h
    · exact Nat.le_max_left ..
    · exact Nat.le_trans (ih h) (Nat.le_max_right ..)

theorem align_dvd_align_struct (h : t ∈ ts) : align w t ∣ align w (.struct ts) := by
  exact (isAlignment_align w t).dvd_of_le (isAlignment_maxAlign w ts) (align_le_maxAlign h)

/-! ### Places of fields -/

theorem alignUp_zero (a : Nat) : alignUp 0 a = 0 := by
  rw [alignUp]
  split
  · rfl
  · rw [Nat.div_eq_of_lt (by omega), Nat.zero_mul]

/-- Aligning finds the first place that is not before an offset. -/
theorem isLeast_alignUp {a : Nat} (ha : 0 < a) (offset : Nat) :
    IsLeast {n | a ∣ n ∧ offset ≤ n} (alignUp offset a) := by
  refine ⟨⟨?_, le_alignUp offset a⟩, ?_⟩
  · rw [alignUp]
    split
    · obtain rfl : a = 1 := by omega
      exact Nat.one_dvd _
    · exact Nat.dvd_mul_left ..
  · rintro n ⟨⟨k, rfl⟩, hle⟩
    rw [alignUp]
    split
    · exact hle
    · have hlt : offset + (a - 1) < a * (k + 1) := by
        rw [Nat.mul_succ]
        omega
      have hdiv := Nat.div_lt_of_lt_mul hlt
      rw [Nat.mul_comm a]
      exact Nat.mul_le_mul_right a (by omega)

theorem isSome_fieldOffsetFrom? : (fieldOffsetFrom? w offset ts k).isSome ↔ k < ts.length := by
  induction ts generalizing offset k with
  | nil => simp [fieldOffsetFrom?]
  | cons t ts ih =>
    cases k with
    | zero => simp [fieldOffsetFrom?]
    | succ k => simp [fieldOffsetFrom?, ih]

/-- A field is placed behind those before it, and they end with it. -/
theorem fieldOffsetFrom?_eq (ht : ts[k]? = some t) :
    ∃ start, fieldOffsetFrom? w offset ts k = some start ∧
      start = alignUp (fieldsEnd w offset (ts.take k)) (align w t) ∧
      fieldsEnd w offset (ts.take (k + 1)) = start + size w t := by
  induction ts generalizing offset k with
  | nil => simp at ht
  | cons t' ts ih =>
    cases k with
    | zero =>
      cases ht
      exact ⟨_, rfl, rfl, rfl⟩
    | succ k => exact ih ht

/-! ### Parts of values -/

theorem align_dvd_size : ∀ {t : Ty}, Fits w t → align w t ∣ size w t
  | .array elem len, h => by
    rw [size_array_of_fits h]
    exact Nat.dvd_mul_left_of_dvd (align_dvd_size h.elem) len
  | .struct fields, _ => by
    rw [align]
    exact (isLeast_alignUp (isAlignment_maxAlign w fields).pos _).1.1
  | .int bits, _ => by
    obtain ⟨k, hk⟩ := exists_ceilPowerOfTwo_eq ((bits + 7) / 8)
    rw [align, size, intSize, hk]
    exact (isAlignment_min_pow k).2
  | .void, _ | .func .., _ => by simp [size]
  | .float, _ | .double, _ | .ptr _, _ => by simp [align, size]

/-- Values of type `t` have a value of type `u` inside, at an offset. -/
inductive PartAt (w : PointerWidth) : Ty → Nat → Ty → Prop
  /-- A value is part of itself. -/
  | self (t : Ty) : PartAt w t 0 t
  /-- The elements of an array follow each other. -/
  | element {t u : Ty} {k len offset : Nat} : k < len → PartAt w t offset u →
    PartAt w (.array t len) (k * size w t + offset) u
  /-- The fields of a structure have their places. -/
  | field {ts : List Ty} {t u : Ty} {k start offset : Nat} : fieldOffset? w ts k = some start →
    ts[k]? = some t → PartAt w t offset u → PartAt w (.struct ts) (start + offset) u

theorem align_dvd_fieldOffset? (h : fieldOffset? w ts k = some start) (ht : ts[k]? = some t) :
    align w t ∣ start := by
  obtain ⟨start', hstart', rfl, -⟩ := fieldOffsetFrom?_eq ht
  cases h.symm.trans hstart'
  exact (isLeast_alignUp (isAlignment_align w t).pos _).1.1

theorem PartAt.aligned (h : PartAt w t offset u) (hfits : Fits w t) :
    align w u ∣ offset ∧ align w u ∣ align w t ∧ offset + size w u ≤ size w t := by
  induction h with
  | self t => exact ⟨Nat.dvd_zero _, Nat.dvd_refl _, by omega⟩
  | @element t u k len offset hk _ ih =>
    obtain ⟨hoffset, halign, hend⟩ := ih hfits.elem
    have hsize := Nat.dvd_trans halign (align_dvd_size hfits.elem)
    have hlast : k * size w t + size w t ≤ len * size w t := by
      rw [← Nat.succ_mul]
      exact Nat.mul_le_mul_right _ hk
    refine ⟨Nat.dvd_add (Nat.dvd_mul_left_of_dvd hsize k) hoffset, by rwa [align], ?_⟩
    rw [size_array_of_fits hfits]
    omega
  | @field ts t u k start offset hstart ht _ ih =>
    have hmem : t ∈ ts := List.mem_of_getElem? ht
    obtain ⟨hoffset, halign, hend⟩ := ih (hfits.field hmem)
    have hlast := end_le_size_struct hstart ht
    refine ⟨Nat.dvd_add (Nat.dvd_trans halign (align_dvd_fieldOffset? hstart ht)) hoffset,
      Nat.dvd_trans halign (align_dvd_align_struct hmem), by omega⟩

/-! ### Natural layouts -/

/-- The fields of a structure are placed as early as alignment allows, and so is its end. -/
structure FieldsNatural (w : PointerWidth) (ts : List Ty) : Prop where
  /-- Exactly the fields have places. -/
  isSome_iff : ∀ k, (fieldOffset? w ts k).isSome ↔ k < ts.length
  /-- There is nothing in front of the first field. -/
  first : ts ≠ [] → fieldOffset? w ts 0 = some 0
  /-- The next field takes the first place behind a field that is aligned for it. -/
  next : ∀ k t u start, ts[k]? = some t → ts[k + 1]? = some u → fieldOffset? w ts k = some start →
    ∃ start', fieldOffset? w ts (k + 1) = some start' ∧
      IsLeast {n | align w u ∣ n ∧ start + size w t ≤ n} start'
  /-- The structure ends at the first place behind its last field that is aligned for it. -/
  last : ∀ k t start, ts[k]? = some t → ts.length = k + 1 → fieldOffset? w ts k = some start →
    IsLeast {n | align w (.struct ts) ∣ n ∧ start + size w t ≤ n} (size w (.struct ts))
  empty : ts = [] → size w (.struct ts) = 0

/-- Values of a type are laid out naturally. -/
structure Natural (w : PointerWidth) (t : Ty) : Prop where
  /-- Nothing is cut off. -/
  size_eq : size w t = exactSize w t
  align_eq : align w t = 1 ∨ align w t = 2 ∨ align w t = 4 ∨ align w t = 8
  align_dvd : align w t ∣ size w t
  /-- The elements of an array follow each other without padding. -/
  array : ∀ elem len, t = .array elem len → size w t = len * size w elem
  struct : ∀ fields, t = .struct fields → FieldsNatural w fields
  /-- Whatever is inside a value is aligned and ends before the value does. -/
  parts : ∀ offset u, PartAt w t offset u → align w u ∣ offset ∧ offset + size w u ≤ size w t

private theorem fieldsNatural (w : PointerWidth) (ts : List Ty) : FieldsNatural w ts where
  isSome_iff _ := isSome_fieldOffsetFrom?
  first h := by
    obtain ⟨t, rest, rfl⟩ := List.exists_cons_of_ne_nil h
    exact congrArg some (alignUp_zero _)
  next k t u start ht hu hstart := by
    obtain ⟨start₁, hstart₁, -, hend⟩ := fieldOffsetFrom?_eq ht
    obtain ⟨start', hstart', rfl, -⟩ := fieldOffsetFrom?_eq hu
    cases hstart.symm.trans hstart₁
    refine ⟨_, hstart', ?_⟩
    rw [hend]
    exact isLeast_alignUp (isAlignment_align w u).pos _
  last k t start ht hlength hstart := by
    obtain ⟨start₁, hstart₁, -, hend⟩ := fieldOffsetFrom?_eq ht
    cases hstart.symm.trans hstart₁
    rw [← hlength, List.take_length] at hend
    rw [size, hend]
    exact isLeast_alignUp (isAlignment_maxAlign w ts).pos _
  empty h := by
    rw [h, size]
    exact alignUp_zero _

/-- Types are laid out naturally as long as no exact size is larger than the largest word. -/
theorem natural_of_fits (w : PointerWidth) (t : Ty) (h : Fits w t) : Natural w t where
  size_eq := size_eq_exactSize h
  align_eq := isAlignment_align w t
  align_dvd := align_dvd_size h
  array := by
    rintro elem len rfl
    exact size_array_of_fits h
  struct fields _ := fieldsNatural w fields
  parts _ _ hpart := ⟨(hpart.aligned h).1, (hpart.aligned h).2.2⟩

/-- Three records between two integers. There is padding in front of the records, in front of a
field of theirs, behind each of them, and at the end. -/
def records : List Ty :=
  [.int 8, .array (.struct [.int 16, .ptr (.int 8), .int 33, .int 1]) 3, .int 17]

theorem natural_of_fits_records : Fits .bits64 (.struct records) ∧
    Natural .bits64 (.struct records) ∧ size .bits64 (.struct records) = 112 ∧
    fieldOffset? .bits64 records 1 = some 8 ∧ fieldOffset? .bits64 records 2 = some 104 :=
  ⟨by decide, natural_of_fits _ _ (by decide), by decide, by decide, by decide⟩

-- the size of an array that is cut off is odd
example : ¬align .bits32 (.array (.int 64) maxWord) ∣ size .bits32 (.array (.int 64) maxWord) := by
  decide

/-! ### Sizes in words -/

/-- The sizes of a type and of all its parts are words, those of arrays being cut off. -/
def InWords (w : PointerWidth) (t : Ty) : Prop := ∀ u ∈ t.parts, size w u ≤ maxWord

instance (w : PointerWidth) (t : Ty) : Decidable (InWords w t) :=
  inferInstanceAs (Decidable (∀ u ∈ t.parts, size w u ≤ maxWord))

variable {w : PointerWidth} {t : Ty} {ts : List Ty} {offset k len n m : Nat}

theorem word?_eq_some_iff : word? n = some m ↔ n ≤ maxWord ∧ n = m := by
  rw [word?]
  split <;> simp [*]

theorem inWords_array : InWords w (.array t len) ↔ InWords w t := by
  have hsize : size w (.array t len) ≤ maxWord := by
    rw [size]
    exact Nat.min_le_right ..
  simp [InWords, Ty.parts, hsize]

private theorem inWords_struct :
    InWords w (.struct ts) ↔ (∀ t ∈ ts, InWords w t) ∧ size w (.struct ts) ≤ maxWord := by
  rw [InWords, Ty.parts, List.forall_mem_cons, and_comm]
  refine and_congr_left fun _ => ⟨fun h t ht u hu => ?_, fun h u hu => ?_⟩
  · exact h u (Ty.mem_partsOfAll.mpr ⟨t, ht, hu⟩)
  · obtain ⟨t, ht, hu⟩ := Ty.mem_partsOfAll.mp hu
    exact h t ht u hu

/-! ### What is computed -/

mutual

theorem wordSize?_eq_some_iff : ∀ {t : Ty} {n : Nat},
    wordSize? w t = some n ↔ InWords w t ∧ size w t = n
  | .array elem len, n => by
    simp only [wordSize?, Option.bind_eq_bind, Option.bind_eq_some_iff, Option.pure_def,
      Option.some.injEq, wordSize?_eq_some_iff, inWords_array, size, and_assoc, exists_and_left,
      exists_eq_left']
  | .struct fields, n => by
    rw [inWords_struct, size, wordSize?, Option.bind_eq_bind, Option.bind_eq_some_iff]
    have hend := le_alignUp (fieldsEnd w 0 fields) (maxAlign w fields)
    constructor
    · rintro ⟨stop, hstop, hword⟩
      obtain ⟨hfields, rfl, -⟩ := (wordEnd?_eq_some_iff (Nat.zero_le _)).mp hstop
      obtain ⟨hle, rfl⟩ := word?_eq_some_iff.mp hword
      exact ⟨⟨hfields, hle⟩, rfl⟩
    · rintro ⟨⟨hfields, hle⟩, rfl⟩
      exact ⟨_, (wordEnd?_eq_some_iff (Nat.zero_le _)).mpr ⟨hfields, rfl, Nat.le_trans hend hle⟩,
        word?_eq_some_iff.mpr ⟨hle, rfl⟩⟩
  | .void, n | .int _, n | .float, n | .double, n | .ptr _, n | .func .., n => by
    simp [wordSize?, word?_eq_some_iff, InWords, Ty.parts]

/-- The end of some fields is computed if none of them is too large, nor all together. What is
computed on the way is not behind the end. -/
theorem wordEnd?_eq_some_iff : ∀ {ts : List Ty} {offset n : Nat}, offset ≤ maxWord →
    (wordEnd? w offset ts = some n ↔
      (∀ t ∈ ts, InWords w t) ∧ fieldsEnd w offset ts = n ∧ n ≤ maxWord)
  | [], offset, n, h => by
    simp only [wordEnd?, fieldsEnd, Option.some.injEq]
    constructor
    · rintro rfl
      exact ⟨by simp, rfl, h⟩
    · exact fun h => h.2.1
  | t :: ts, offset, n, h => by
    simp only [wordEnd?, fieldsEnd, Option.bind_eq_bind, Option.bind_eq_some_iff, word?_eq_some_iff,
      List.forall_mem_cons]
    constructor
    · rintro ⟨_, ⟨-, rfl⟩, _, hbytes, _, ⟨hstop, rfl⟩, hrest⟩
      obtain ⟨ht, rfl⟩ := wordSize?_eq_some_iff.mp hbytes
      obtain ⟨hts, hend⟩ := (wordEnd?_eq_some_iff hstop).mp hrest
      exact ⟨⟨ht, hts⟩, hend⟩
    · rintro ⟨⟨ht, hts⟩, rfl, hle⟩
      have hstop := le_fieldsEnd w (alignUp offset (align w t) + size w t) ts
      exact ⟨_, ⟨by omega, rfl⟩, _, wordSize?_eq_some_iff.mpr ⟨ht, rfl⟩, _, ⟨by omega, rfl⟩,
        (wordEnd?_eq_some_iff (by omega)).mpr ⟨hts, rfl, hle⟩⟩

end

/-- The place of a field is computed if none of the fields before it is too large, nor all
together. -/
theorem wordOffset?_eq_some_iff :
    wordOffset? w ts k = some n ↔
      (∀ t ∈ ts.take k, InWords w t) ∧ fieldOffset? w ts k = some n ∧ n ≤ maxWord := by
  cases hfield : ts[k]? with
  | none =>
    have hnone : fieldOffset? w ts k = none := by
      rw [← Option.not_isSome_iff_eq_none, fieldOffset?, isSome_fieldOffsetFrom?]
      simpa using hfield
    simp [wordOffset?, hfield, hnone]
  | some t =>
    obtain ⟨start, hstart, rfl, -⟩ : ∃ start, fieldOffset? w ts k = some start ∧ start = _ ∧ _ :=
      fieldOffsetFrom?_eq hfield
    have hend := le_alignUp (fieldsEnd w 0 (ts.take k)) (align w t)
    rw [hstart]
    simp only [wordOffset?, hfield, Option.bind_eq_bind, Option.bind_some, Option.bind_eq_some_iff,
      word?_eq_some_iff, Option.some.injEq]
    constructor
    · rintro ⟨stop, hstop, hle, rfl⟩
      obtain ⟨hfields, rfl, -⟩ := (wordEnd?_eq_some_iff (Nat.zero_le _)).mp hstop
      exact ⟨hfields, rfl, hle⟩
    · rintro ⟨hfields, rfl, hle⟩
      exact ⟨_, (wordEnd?_eq_some_iff (Nat.zero_le _)).mpr ⟨hfields, rfl, Nat.le_trans hend hle⟩,
        hle, rfl⟩

private theorem intSize_le {bits : Nat} (h : bits < 2 ^ 32) : intSize bits ≤ 2 ^ 29 := by
  rw [intSize, ceilPowerOfTwo]
  split
  · decide
  · have hlog : ((bits + 7) / 8 - 1).log2 < 29 := (Nat.log2_lt (by omega)).mpr (by omega)
    rw [Nat.one_shiftLeft]
    exact Nat.pow_le_pow_right (by decide) hlog

/-- Alignments and the sizes of integers never overflow. The size of a type is computed if it and
all its parts have sizes that are words, and the place of a field if the fields before it have, and
the place is a word. -/
theorem layout_in_words (w : PointerWidth) :
    (∀ t, IsAlignment (align w t)) ∧
      (∀ bits < 2 ^ 32, wordSize? w (.int bits) = some (intSize bits)) ∧
    (∀ t n, wordSize? w t = some n ↔ InWords w t ∧ size w t = n) ∧
    ∀ fields k n, wordOffset? w fields k = some n ↔
      (∀ t ∈ fields.take k, InWords w t) ∧ fieldOffset? w fields k = some n ∧ n ≤ maxWord := by
  refine ⟨isAlignment_align w, fun bits h => ?_, fun _ _ => wordSize?_eq_some_iff,
    fun _ _ _ => wordOffset?_eq_some_iff⟩
  have hle : 2 ^ 29 ≤ maxWord := by decide
  exact word?_eq_some_iff.mpr ⟨Nat.le_trans (intSize_le h) hle, rfl⟩

/-- An array as large as it can be, and one more byte. -/
def overfull : Ty := .struct [.array (.int 8) maxWord, .int 8]

/-- The byte behind the array has a place, but the structure has no size. Without elements, an array
of such structures has none either. -/
theorem layout_in_words_overfull :
    wordOffset? .bits64 [.array (.int 8) maxWord, .int 8] 1 = some maxWord ∧
      wordSize? .bits64 overfull = none ∧ wordSize? .bits64 (.array overfull 0) = none := by
  obtain ⟨-, -, hsize, hoffset⟩ := layout_in_words .bits64
  have hnone : ∀ t, ¬InWords .bits64 t → wordSize? .bits64 t = none := fun t ht =>
    Option.eq_none_iff_forall_ne_some.mpr fun n h => ht ((hsize t n).mp h).1
  exact ⟨(hoffset _ _ _).mpr (by decide), hnone _ (by decide), hnone _ (by decide)⟩

end Layout

end PointerGuard
