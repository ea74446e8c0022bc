import Mathlib.Algebra.Group.Nat.Defs
import PointerGuard.GlobalSeed
import PointerGuard.Proofs.Edits
import PointerGuard.Provenance

/-!
# Pointers in initializers

The leaves of an initializer are the pointers written out in it, each with the path of indices that
leads to it and its distance from the start of the global. The walk that collects pointer fields
lists them, each once, in the order of their places, and the path of a leaf has its distance as its
offset.
-/

namespace PointerGuard

variable {path : List Int}

/-! ### Places of fields -/

theorem signedWord?_of_lt {n : Nat} (h : n < 2 ^ 63) : signedWord? n = some (n : Int) := by
  rw [signedWord?, if_pos]
  omega

namespace Layout

variable {w : PointerWidth} {t : Ty} {ts : List Ty} {offset start k len : Nat}

theorem le_alignUp (offset align : Nat) : offset ≤ alignUp offset align := by
  rw [alignUp]
  split
  · exact Nat.le_refl _
  · have hpos : 0 < align := by omega
    have hdiv := Nat.div_add_mod (offset + (align - 1)) align
    have hmod := Nat.mod_lt (offset + (align - 1)) hpos
    rw [Nat.mul_comm] at hdiv
    omega

theorem le_fieldsEnd (w : PointerWidth) (offset : Nat) (ts : List Ty) :
    offset ≤ fieldsEnd w offset ts := by
  induction ts generalizing offset with
  | nil => exact Nat.le_refl _
  | cons t ts ih =>
    have hstart := le_alignUp offset (align w t)
    have hend := ih (alignUp offset (align w t) + size w t)
    rw [fieldsEnd]
    omega

/-- A field starts behind those before it and ends before those behind it. -/
theorem bounds_of_fieldOffsetFrom? (h : fieldOffsetFrom? w offset ts k = some start)
    (ht : ts[k]? = some t) : offset ≤ start ∧ start + size w t ≤ fieldsEnd w offset ts := by
  induction ts generalizing offset k with
  | nil => simp at ht
  | cons t' ts ih =>
    have hstart := le_alignUp offset (align w t')
    cases k with
    | zero =>
      cases h
      cases ht
      exact ⟨hstart, le_fieldsEnd ..⟩
    | succ k =>
      obtain ⟨hle, hend⟩ := ih h ht
      exact ⟨by omega, hend⟩

theorem end_le_size_struct (h : fieldOffset? w ts k = some start) (ht : ts[k]? = some t) :
    start + size w t ≤ size w (.struct ts) := by
  exact Nat.le_trans (bounds_of_fieldOffsetFrom? h ht).2 (le_alignUp _ _)

private theorem size_array_of_lt (h : size w (.array t len) < 2 ^ 63) :
    size w (.array t len) = size w t * len := by
  rw [size, maxWord] at h ⊢
  omega

theorem end_le_size_array (h : size w (.array t len) < 2 ^ 63) (hk : k < len) :
    k * size w t + size w t ≤ size w (.array t len) := by
  rw [size_array_of_lt h, Nat.mul_comm (size w t), ← Nat.succ_mul]
  exact Nat.mul_le_mul_right _ hk

theorem walkOffset?_array (h : start + (k * size w t + size w t) < 2 ^ 63) :
    walkOffset? w (.array t len) start (Int.ofNat k :: path) =
      walkOffset? w t (start + k * size w t : Nat) path := by
  have hstep : Int.ofNat k * (size w t : Int) = (k * size w t : Nat) := (Int.natCast_mul ..).symm
  simp only [walkOffset?, Option.bind_eq_bind]
  rw [signedWord?_of_lt (by omega), Option.bind_some, hstep, signedWord?_of_lt (by omega),
    Option.bind_some, ← Int.natCast_add, signedWord?_of_lt (by omega), Option.bind_some]

theorem walkOffset?_struct (hk : fieldOffset? w ts k = some offset) (ht : ts[k]? = some t)
    (h : start + offset < 2 ^ 63) :
    walkOffset? w (.struct ts) start (Int.ofNat k :: path) =
      walkOffset? w t (start + offset : Nat) path := by
  rw [walkOffset?, hk, ht, Option.bind_some, signedWord?_of_lt (by omega), Option.bind_eq_bind,
    Option.bind_some, ← Int.natCast_add, signedWord?_of_lt h, Option.bind_eq_bind,
    Option.bind_some, Option.bind_some]

theorem pathOffset?_zero (h : size w t < 2 ^ 63) :
    pathOffset? w t (0 :: path) = walkOffset? w t 0 path := by
  rw [pathOffset?, signedWord?_of_lt h, Option.bind_eq_bind, Option.bind_some, Int.zero_mul]
  rfl

end Layout

/-! ### Leaves -/

/-- A pointer that is written out in an initializer. -/
structure Leaf where
  /-- The indices that lead to it. -/
  path : List Nat
  /-- How far it is from the start of the initializer, in bytes. -/
  offset : Nat
  /-- Its type. -/
  ty : Ty
  /-- The pointer. -/
  value : Constant
  deriving DecidableEq, Repr

/-- The leaf as one of an aggregate whose part of a number starts at a distance. -/
def Leaf.under (index start : Nat) (leaf : Leaf) : Leaf :=
  { leaf with path := index :: leaf.path, offset := start + leaf.offset }

@[simp] theorem Leaf.path_under (index start : Nat) (leaf : Leaf) :
    (leaf.under index start).path = index :: leaf.path := rfl

@[simp] theorem Leaf.offset_under (index start : Nat) (leaf : Leaf) :
    (leaf.under index start).offset = start + leaf.offset := rfl

namespace Constant

open PointerField Layout

/-- The leaves of a constant of some type: the pointers in it that lie in no part that is zero or
undefined as a whole. -/
inductive HasLeaf (w : PointerWidth) : Constant → Ty → Leaf → Prop
  | pointer {value pointee} : isBlank value = false →
      HasLeaf w value (.ptr pointee) ⟨[], 0, .ptr pointee, value⟩
  | element {value elem len index part leaf} : index < len →
      (elementsOf value)[index]? = some part → HasLeaf w part elem leaf →
      HasLeaf w value (.array elem len) (leaf.under index (index * size w elem))
  | member {value members index ty part start leaf} : members[index]? = some ty →
      (elementsOf value)[index]? = some part → fieldOffset? w members index = some start →
      HasLeaf w part ty leaf → HasLeaf w value (.struct members) (leaf.under index start)

mutual

def leaves (w : PointerWidth) (value : Constant) : Ty → List Leaf
  | .ptr pointee => if isBlank value then [] else [⟨[], 0, .ptr pointee, value⟩]
  | .array elem len => ((elementsOf value).take len).zipIdx.flatMap fun (part, index) =>
    (part.leaves w elem).map (.under index (index * size w elem))
  | .struct members => leavesOfMembers w 0 0 (elementsOf value) members
  | .void | .int _ | .float | .double | .func .. => []

/-- The leaves of the members of a structure. The first has a number and may start at an offset. -/
def leavesOfMembers (w : PointerWidth) (index offset : Nat) (parts : List Constant) :
    List Ty → List Leaf
  | [] => []
  | ty :: members =>
    match parts with
    | [] => []
    | part :: parts =>
      let start := alignUp offset (align w ty)
      (part.leaves w ty).map (.under index start) ++
        leavesOfMembers w (index + 1) (start + size w ty) parts members

end

mutual

/-- Does a constant fit a type? For an aggregate it is zero or undefined as a whole, or lists a
constant that fits for each part. -/
def hasType (value : Constant) : Ty → Bool
  | .array elem len => value.ty = .array elem len &&
    match value with
    | .aggregate _ parts => parts.length = len && parts.all fun part => part.hasType elem
    | _ => isBlank value
  | .struct members => value.ty = .struct members &&
    match value with
    | .aggregate _ parts => haveTypes parts members
    | _ => isBlank value
  | .void => value.ty = .void
  | .int bits => value.ty = .int bits
  | .float => value.ty = .float
  | .double => value.ty = .double
  | .ptr pointee => value.ty = .ptr pointee
  | .func ret params variadic => value.ty = .func ret params variadic

/-- Are there as many constants as types, and does each fit its type? -/
def haveTypes (parts : List Constant) : List Ty → Bool
  | [] => parts.isEmpty
  | ty :: members =>
    match parts with
    | [] => false
    | part :: parts => part.hasType ty && haveTypes parts members

end

variable {w : PointerWidth} {value : Constant} {ty elem : Ty} {members : List Ty} {len : Nat}
  {leaf : Leaf}

theorem parts_of_hasType_array (h : value.hasType (.array elem len)) : isBlank value ∨
    ∃ t parts, value = .aggregate t parts ∧ parts.length = len ∧
      ∀ part ∈ parts, part.hasType elem := by
  cases value with
  | aggregate t parts =>
    simp only [hasType, Bool.and_eq_true, decide_eq_true_eq, List.all_eq_true] at h
    exact .inr ⟨t, parts, rfl, h.2⟩
  | _ =>
    simp only [hasType, Bool.and_eq_true] at h
    exact .inl h.2

theorem parts_of_hasType_struct (h : value.hasType (.struct members)) : isBlank value ∨
    ∃ t parts, value = .aggregate t parts ∧ haveTypes parts members := by
  cases value with
  | aggregate t parts =>
    simp only [hasType, Bool.and_eq_true] at h
    exact .inr ⟨t, parts, rfl, h.2⟩
  | _ =>
    simp only [hasType, Bool.and_eq_true] at h
    exact .inl h.2

mutual

theorem mem_leaves : ∀ {ty : Ty} {value : Constant} {leaf : Leaf},
    leaf ∈ value.leaves w ty ↔ value.HasLeaf w ty leaf
  | .ptr pointee, value, leaf => by
    rw [leaves]
    constructor
    · intro h
      split at h
      · cases h
      · rename_i hblank
        obtain rfl := List.mem_singleton.mp h
        exact .pointer (Bool.not_eq_true _ ▸ hblank)
    · rintro ⟨hblank⟩
      simp [hblank]
  | .array elem len, value, leaf => by
    simp only [leaves, List.mem_flatMap, List.mem_map, Prod.exists, List.mem_zipIdx_iff_getElem?,
      List.getElem?_take]
    constructor
    · rintro ⟨part, index, hpart, leaf, hleaf, rfl⟩
      split at hpart
      · exact .element ‹_› hpart (mem_leaves.mp hleaf)
      · cases hpart
    · rintro (_ | ⟨hindex, hpart, hleaf⟩)
      exact ⟨_, _, by rwa [if_pos hindex], _, mem_leaves.mpr hleaf, rfl⟩
  | .struct members, value, leaf => by
    simp only [leaves, mem_leavesOfMembers, Nat.zero_add]
    constructor
    · rintro ⟨index, ty, part, start, leaf, hty, hpart, hstart, hleaf, rfl⟩
      exact .member hty hpart hstart hleaf
    · rintro (_ | _ | ⟨hty, hpart, hstart, hleaf⟩)
      exact ⟨_, _, _, _, _, hty, hpart, hstart, hleaf, rfl⟩
  | .void, value, leaf | .int _, value, leaf | .float, value, leaf | .double, value, leaf
  | .func .., value, leaf => by
    rw [leaves]
    exact ⟨nofun, nofun⟩

theorem mem_leavesOfMembers : ∀ {members parts first offset leaf},
    leaf ∈ leavesOfMembers w first offset parts members ↔
      ∃ (index : Nat) (ty : Ty) (part : Constant) (start : Nat) (inner : Leaf),
        members[index]? = some ty ∧ parts[index]? = some part ∧
        fieldOffsetFrom? w offset members index = some start ∧ part.HasLeaf w ty inner ∧
        leaf = inner.under (first + index) start
  | [], parts, first, offset, leaf => by
    rw [leavesOfMembers]
    simp
  | ty :: members, [], first, offset, leaf => by
    simp [leavesOfMembers]
  | ty :: members, part :: parts, first, offset, leaf => by
    simp only [leavesOfMembers, List.mem_append, List.mem_map, mem_leaves, mem_leavesOfMembers]
    constructor
    · rintro (⟨inner, hleaf, rfl⟩ | ⟨index, ty, part, start, inner, hty, hpart, hstart, hleaf, rfl⟩)
      · exact ⟨0, ty, part, _, inner, rfl, rfl, rfl, hleaf, rfl⟩
      · exact ⟨index + 1, ty, part, start, inner, hty, hpart, hstart, hleaf, by
          rw [Nat.add_assoc, Nat.add_comm 1]⟩
    · rintro ⟨index, ty, part, start, inner, hty, hpart, hstart, hleaf, rfl⟩
      cases index with
      | zero =>
        cases hty
        cases hpart
        cases hstart
        exact .inl ⟨inner, hleaf, rfl⟩
      | succ index =>
        exact .inr ⟨index, ty, part, start, inner, hty, hpart, hstart, hleaf, by
          rw [Nat.add_assoc, Nat.add_comm 1]⟩

end

mutual

theorem leaves_eq_nil : ∀ {ty : Ty} {value : Constant},
    ty.containsPointer = false → value.leaves w ty = []
  | .ptr _, _, h => by
    cases h
  | .array elem len, value, h => by
    rw [Ty.containsPointer] at h
    simp [leaves, leaves_eq_nil h]
  | .struct members, value, h => by
    rw [Ty.containsPointer] at h
    rw [leaves, leavesOfMembers_eq_nil h]
  | .void, _, _ | .int _, _, _ | .float, _, _ | .double, _, _ | .func .., _, _ => by
    rw [leaves]

theorem leavesOfMembers_eq_nil : ∀ {members parts index offset},
    Ty.anyContainsPointer members = false → leavesOfMembers w index offset parts members = []
  | [], _, _, _, _ => by
    rw [leavesOfMembers]
  | ty :: members, [], _, _, _ => by
    rw [leavesOfMembers]
  | ty :: members, part :: parts, _, _, h => by
    rw [Ty.anyContainsPointer, Bool.or_eq_false_iff] at h
    simp [leavesOfMembers, leaves_eq_nil h.1, leavesOfMembers_eq_nil h.2]

end

private theorem elementsOf_eq_nil (h : isBlank value) : elementsOf value = [] := by
  cases value with
  | zero | undef => rfl
  | _ => cases h

theorem leaves_of_isBlank (h : isBlank value) : value.leaves w ty = [] := by
  cases ty with
  | ptr => rw [leaves, if_pos h]
  | array => simp [leaves, elementsOf_eq_nil h]
  | struct members => cases members <;> simp [leaves, elementsOf_eq_nil h, leavesOfMembers]
  | _ => rw [leaves]

/-! ### Where leaves lie -/

namespace HasLeaf

section

variable (h : value.HasLeaf w ty leaf)

include h

theorem inside (hsize : size w ty < 2 ^ 63) : leaf.offset + w.bytes ≤ size w ty := by
  induction h with
  | pointer =>
    exact Nat.le_of_eq (Nat.zero_add _)
  | element hindex hpart hleaf ih =>
    have hend := end_le_size_array hsize hindex
    rw [Leaf.offset_under]
    omega
  | member hty hpart hstart hleaf ih =>
    have hend := end_le_size_struct hstart hty
    rw [Leaf.offset_under]
    omega

/-- Following the path of a leaf from some place, one gets to the leaf. -/
theorem walkOffset?_eq (start : Nat) (hsize : start + size w ty < 2 ^ 63) :
    walkOffset? w ty start (leaf.path.map Int.ofNat) = some ((start + leaf.offset : Nat) : Int)
    := by
  induction h generalizing start with
  | pointer => rfl
  | @element value elem len index part leaf hindex hpart hleaf ih =>
    have hend := end_le_size_array (w := w) (t := elem) (by omega) hindex
    rw [Leaf.path_under, Leaf.offset_under, List.map_cons, walkOffset?_array (by omega),
      ih _ (by omega), Nat.add_assoc]
  | @member value members index ty part first leaf hty hpart hfirst hleaf ih =>
    have hend := end_le_size_struct hfirst hty
    rw [Leaf.path_under, Leaf.offset_under, List.map_cons, walkOffset?_struct hfirst hty (by omega),
      ih _ (by omega), Nat.add_assoc]

/-- The path of a leaf has the distance of the leaf as its offset. -/
theorem pathOffset?_eq (hsize : size w ty < 2 ^ 63) :
    pathOffset? w ty ((0 :: leaf.path).map Int.ofNat) = some (leaf.offset : Int) := by
  have hwalk := h.walkOffset?_eq 0 (by omega)
  rw [Nat.zero_add] at hwalk
  exact (pathOffset?_zero hsize).trans hwalk

theorem walkType?_eq :
    walkType? ty (leaf.path.map fun index => some (Int.ofNat index)) = some leaf.ty := by
  induction h with
  | pointer => rfl
  | element _ _ _ ih => exact ih
  | member hty _ _ _ ih =>
    simp only [Leaf.path_under, List.map_cons, walkType?, hty]
    exact ih

end

end HasLeaf

mutual

/-- Leaves are listed in the order of their places, and do not overlap. -/
theorem pairwise_leaves : ∀ {ty : Ty} {value : Constant}, size w ty < 2 ^ 63 →
    (value.leaves w ty).Pairwise fun a b => a.offset + w.bytes ≤ b.offset
  | .ptr pointee, value, hsize => by
    rw [leaves]
    split <;> simp
  | .array elem len, value, hsize => by
    rw [leaves, List.pairwise_flatMap]
    have hfits : ∀ {part : Constant} {index : Nat},
        (part, index) ∈ ((elementsOf value).take len).zipIdx →
        index * size w elem + size w elem ≤ size w (.array elem len) := by
      intro part index h
      rw [List.mem_zipIdx_iff_getElem?, List.getElem?_take] at h
      split at h
      · exact end_le_size_array hsize ‹_›
      · cases h
    constructor
    · rintro ⟨part, index⟩ hpart
      have hend := hfits hpart
      rw [List.pairwise_map]
      exact (pairwise_leaves (by omega)).imp fun h => by
        simp only [Leaf.offset_under]
        omega
    · rw [List.pairwise_iff_getElem]
      intro i j hi hj hlt a ha b hb
      simp only [List.getElem_zipIdx, Nat.zero_add] at ha hb
      obtain ⟨a, hin, rfl⟩ := List.mem_map.mp ha
      obtain ⟨b, -, rfl⟩ := List.mem_map.mp hb
      have hend := hfits (List.getElem_mem hi)
      have hinside := (mem_leaves.mp hin).inside (by omega)
      have hstep := Nat.mul_le_mul_right (size w elem) (Nat.succ_le_of_lt hlt)
      rw [Nat.succ_mul] at hstep
      simp only [Leaf.offset_under]
      omega
  | .struct members, value, hsize => by
    apply pairwise_leavesOfMembers
    exact Nat.lt_of_le_of_lt (le_alignUp _ _) hsize
  | .void, _, _ | .int _, _, _ | .float, _, _ | .double, _, _ | .func .., _, _ => by
    exact .nil

theorem pairwise_leavesOfMembers : ∀ {members : List Ty} {parts : List Constant} {index offset},
    fieldsEnd w offset members < 2 ^ 63 → (leavesOfMembers w index offset parts members).Pairwise
      fun a b => a.offset + w.bytes ≤ b.offset
  | [], _, _, _, _ => by
    exact .nil
  | ty :: members, [], _, _, _ => by
    exact .nil
  | ty :: members, part :: parts, index, offset, hsize => by
    rw [fieldsEnd] at hsize
    have hend := le_fieldsEnd w (alignUp offset (align w ty) + size w ty) members
    rw [leavesOfMembers, List.pairwise_append, List.pairwise_map]
    have hty : size w ty < 2 ^ 63 := by omega
    refine ⟨(pairwise_leaves hty).imp fun h => ?_, pairwise_leavesOfMembers hsize, ?_⟩
    · simp only [Leaf.offset_under]
      omega
    · -- the leaves of later members lie behind the end of this one
      intro a ha b hb
      obtain ⟨a, hin, rfl⟩ := List.mem_map.mp ha
      obtain ⟨_, ty', _, start, b, hty', -, hstart, -, rfl⟩ := mem_leavesOfMembers.mp hb
      have hinside := (mem_leaves.mp hin).inside hty
      have hbehind := (bounds_of_fieldOffsetFrom? hstart hty').1
      simp only [Leaf.offset_under]
      omega

end

end Constant

/-! ### Collecting pointer fields -/

/-- A leaf as a pointer field of a global, if the initializer it belongs to lies at a path. -/
def Leaf.field (address : Constant) (path : List Nat) (leaf : Leaf) : PointerField :=
  ⟨PointerField.addressOf address (path ++ leaf.path) leaf.ty, leaf.value⟩

theorem Leaf.map_field_under (address : Constant) (path : List Nat) (index start : Nat)
    (leaves : List Leaf) : (leaves.map (Leaf.under index start)).map (Leaf.field address path) =
      leaves.map (Leaf.field address (path ++ [index])) := by
  simp [Leaf.field, Leaf.under]

namespace PointerField

open Constant

variable {w : PointerWidth} {address : Constant}

mutual

/-- The pointer fields of an initializer that fits its type are its leaves. -/
theorem collect_eq : ∀ {ty : Ty} {value : Constant} {path : List Nat}, value.hasType ty →
    collect address path value ty = .ok ((value.leaves w ty).map (Leaf.field address path))
  | .ptr pointee, value, path, _ => by
    rw [collect, leaves]
    split
    · rfl
    · simp [Leaf.field]
  | .array elem len, value, path, h => by
    rw [collect]
    split
    · rename_i hskip
      rcases Bool.or_eq_true_iff.mp hskip with hblank | hnone
      · rw [leaves_of_isBlank hblank, List.map_nil]
      · rw [leaves_eq_nil (by simpa [Ty.containsPointer] using hnone), List.map_nil]
    · rename_i hkeep
      rcases parts_of_hasType_array h with hblank | ⟨t, parts, rfl, rfl, hparts⟩
      · exact absurd (Bool.or_eq_true_iff.mpr (.inl hblank)) hkeep
      have hfound : (parts.zipIdx.mapM fun (part, index) =>
          collect address (path ++ [index]) part elem) = .ok (parts.zipIdx.map fun (part, index) =>
            (part.leaves w elem).map (Leaf.field address (path ++ [index]))) := by
        rw [Outcome.mapM_eq_ok, List.forall₂_map_right_iff, List.forall₂_same]
        rintro ⟨part, index⟩ hmem
        exact collect_eq (hparts part (List.fst_mem_of_mem_zipIdx hmem))
      simp only [elementsOf, List.take_length, hfound, leaves, List.map_flatMap,
        Leaf.map_field_under]
      rw [Outcome.bind_eq_ok]
      exact ⟨_, rfl, by rw [if_neg (Nat.lt_irrefl _)]; rfl⟩
  | .struct members, value, path, h => by
    rw [collect]
    split
    · rename_i hblank
      rw [leaves_of_isBlank hblank, List.map_nil]
    · rename_i hkeep
      rcases parts_of_hasType_struct h with hblank | ⟨t, parts, rfl, hparts⟩
      · exact absurd hblank hkeep
      · exact collectMembers_eq path 0 0 hparts fun k => by rw [Nat.zero_add]; rfl
  | .void, _, _, _ | .int _, _, _, _ | .float, _, _, _ | .double, _, _, _ | .func .., _, _, _ => by
    rfl

theorem collectMembers_eq : ∀ {members : List Ty} {value : Constant} {parts : List Constant}
    (path : List Nat) (index offset : Nat), haveTypes parts members →
    (∀ k, value.element? (index + k) = parts[k]?) →
    collectMembers address path value index members =
      .ok ((leavesOfMembers w index offset parts members).map (Leaf.field address path))
  | [], _, _, _, _, _, _, _ => by
    rfl
  | _ :: _, _, [], _, _, _, h, _ => by
    cases h
  | ty :: members, value, part :: parts, path, index, offset, h, hparts => by
    rw [haveTypes, Bool.and_eq_true] at h
    have hrest := collectMembers_eq path (index + 1)
      (Layout.alignUp offset (Layout.align w ty) + Layout.size w ty) h.2 fun k => by
        rw [Nat.add_assoc, Nat.add_comm 1, hparts, List.getElem?_cons_succ]
    have hpart : value.element? index = some part := hparts 0
    rw [collectMembers, leavesOfMembers, List.map_append, Leaf.map_field_under, hpart, hrest]
    split
    · simp only [collect_eq h.1]
      rfl
    · rename_i hnone
      rw [leaves_eq_nil (Bool.not_eq_true _ ▸ hnone)]
      rfl

end

end PointerField

end PointerGuard
