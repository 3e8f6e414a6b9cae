import StructuralTypes.Proofs.Ty.Names

set_option autoImplicit false

namespace StructuralTypes.Ty

/-- The path leads to a reference to the name. `scope` has the type parameters of the functions on
the path, from the outside in. -/
inductive ReferenceAt (name : String) : List Nat → List String → Ty → Prop
  | here : ReferenceAt name [] [] (ref name)
  | inside {ty child : Ty} {i : Nat} {path : List Nat} {scope : List String}
    (part : ty.children[i]? = some child) (deep : ReferenceAt name path scope child) :
    ReferenceAt name (i :: path) (ty.binders ++ scope) ty

/-- A reference to the name stands at the end of the path, and no function on the way binds it. -/
def FreeAt (ty : Ty) (name : String) (path : List Nat) : Prop :=
  ∃ scope, ty.ReferenceAt name path scope ∧ name ∉ scope

/-- A reference to the name stands at the end of the path, and a function on the way binds it. -/
def BoundAt (ty : Ty) (name : String) (path : List Nat) : Prop :=
  ∃ scope, ty.ReferenceAt name path scope ∧ name ∈ scope

variable {ty : Ty} {name : String} {path : List Nat} {bound : List String}

theorem freeAt_ref_iff {own : String} : (ref own).FreeAt name path ↔ name = own ∧ path = [] := by
  constructor
  · rintro ⟨scope, stands, -⟩
    cases stands with
    | here => exact ⟨rfl, rfl⟩
    | inside part deep => cases part
  · rintro ⟨rfl, rfl⟩
    exact ⟨[], .here, List.not_mem_nil⟩

/-- A free reference in a type that is no reference is one in a part, and the type does not bind
it. -/
theorem freeAt_iff_of_parts (placed : ty.refName? = none) :
    ty.FreeAt name path ↔ name ∉ ty.binders ∧ ∃ i child rest,
      path = i :: rest ∧ ty.children[i]? = some child ∧ child.FreeAt name rest := by
  constructor
  · rintro ⟨scope, stands, outside⟩
    cases stands with
    | here => cases placed
    | @inside _ child i rest scope part deep =>
        rw [List.mem_append, not_or] at outside
        exact ⟨outside.1, i, child, rest, rfl, part, scope, deep, outside.2⟩
  · rintro ⟨unbound, i, child, rest, rfl, part, scope, deep, outside⟩
    refine ⟨_, .inside part deep, ?_⟩
    rw [List.mem_append, not_or]
    exact ⟨unbound, outside⟩

theorem occursFree_iff_exists_freeAt : ty.OccursFree name ↔ ∃ path, ty.FreeAt name path := by
  induction ty using partsInduction with
  | ref own => simp [occursFree_ref_iff, freeAt_ref_iff]
  | parts ty placed ih =>
      rw [occursFree_iff_of_parts placed]
      simp only [freeAt_iff_of_parts placed]
      constructor
      · rintro ⟨unbound, child, member, occurs⟩
        obtain ⟨i, part⟩ := List.mem_iff_getElem?.mp member
        obtain ⟨rest, free⟩ := (ih child member).mp occurs
        exact ⟨i :: rest, unbound, i, child, rest, rfl, part, free⟩
      · rintro ⟨path, unbound, i, child, rest, -, part, free⟩
        have member := List.mem_of_getElem? part
        exact ⟨unbound, child, member, (ih child member).mpr ⟨rest, free⟩⟩

theorem FreeAt.mem_freeNames (free : ty.FreeAt name path) (outside : name ∉ bound) :
    name ∈ ty.freeNames bound :=
  mem_freeNames_iff.mpr ⟨outside, occursFree_iff_exists_freeAt.mpr ⟨path, free⟩⟩

/-- An item of a list that is put together from pieces lies in one of the pieces. -/
theorem exists_of_flatMap_eq_append {α β : Type} {f : α → List β} {as : List α}
    {before after : List β} {b : β} (split : as.flatMap f = before ++ b :: after) :
    ∃ i a inner rest, as[i]? = some a ∧ f a = inner ++ b :: rest ∧
      before = (as.take i).flatMap f ++ inner := by
  induction as generalizing before with
  | nil => simp at split
  | cons a as ih =>
      have beyond (inner : List β) (whole : before = f a ++ inner)
          (later : as.flatMap f = inner ++ b :: after) :
          ∃ i c own rest, (a :: as)[i]? = some c ∧ f c = own ++ b :: rest ∧
            before = ((a :: as).take i).flatMap f ++ own := by
        obtain ⟨i, c, own, rest, part, piece, rfl⟩ := ih later
        exact ⟨i + 1, c, own, rest, part, piece, by simp [whole]⟩
      rw [List.flatMap_cons, List.append_eq_append_iff] at split
      rcases split with ⟨inner, whole, later⟩ | ⟨inner, here, tail⟩
      · exact beyond inner whole later
      · rcases List.cons_eq_append_iff.mp tail with ⟨rfl, later⟩ | ⟨rest, rfl, -⟩
        · exact beyond [] (by simpa using here.symm) later
        · exact ⟨0, a, before, rest, rfl, here, rfl⟩

/-- Each collected name has a path that comes before those of the names not collected until then. -/
theorem exists_first_freeAt {before after : List String}
    (split : ty.freeNames bound = before ++ name :: after) :
    ∃ path, ty.FreeAt name path ∧
      ∀ other place, ty.FreeAt other place → other ∉ bound → other ∉ before → other ≠ name →
        path < place := by
  have collected : name ∈ ty.freeNames bound := by simp [split]
  obtain ⟨-, occurs⟩ := mem_freeNames_iff.mp collected
  induction ty using partsInduction generalizing bound before after with
  | ref own =>
      obtain rfl := occursFree_ref_iff.mp occurs
      refine ⟨[], freeAt_ref_iff.mpr ⟨rfl, rfl⟩, ?_⟩
      intro other place stands _ _ different
      exact absurd (freeAt_ref_iff.mp stands).1 different
  | parts ty placed ih =>
      rw [freeNames_of_parts placed] at split
      obtain ⟨i, child, inner, rest, part, piece, rfl⟩ := exists_of_flatMap_eq_append split
      have within : name ∈ child.freeNames (ty.binders ++ bound) := by simp [piece]
      obtain ⟨path, free, first⟩ := ih child (List.mem_of_getElem? part) piece within
        (mem_freeNames_iff.mp within).2
      have unbound := ((occursFree_iff_of_parts placed).mp occurs).1
      refine ⟨i :: path, (freeAt_iff_of_parts placed).mpr
        ⟨unbound, i, child, path, rfl, part, free⟩, ?_⟩
      intro other place stands outside new different
      obtain ⟨own, j, sibling, deep, rfl, there, inside⟩ := (freeAt_iff_of_parts placed).mp stands
      have hidden : other ∉ ty.binders ++ bound := by
        rw [List.mem_append, not_or]
        exact ⟨own, outside⟩
      rw [List.mem_append, not_or] at new
      rcases Nat.lt_trichotomy i j with later | rfl | earlier
      · exact List.Lex.rel later
      · obtain rfl : child = sibling := by simpa [part] using there
        exact List.Lex.cons (first other deep inside hidden new.2 different)
      · -- what is free in an earlier part has been collected before
        have listed : sibling ∈ ty.children.take i := by
          rw [List.mem_iff_getElem?]
          exact ⟨j, by rw [List.getElem?_take_of_lt earlier, there]⟩
        exact absurd (List.mem_flatMap.mpr ⟨sibling, listed, inside.mem_freeNames hidden⟩) new.1

end StructuralTypes.Ty
