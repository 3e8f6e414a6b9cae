import Mathlib.Data.List.Sublists
import StructuralTypes.Proofs.NormalForm.Types
import StructuralTypes.Proofs.Ty.Rearrangement

set_option autoImplicit false

namespace StructuralTypes.Ty

variable {ty node : Ty} {tys left : List Ty}

section Nodes

/-- All nodes of a type, each before those inside of it. -/
def nodes (ty : Ty) : List Ty := ty :: ty.children.attach.flatMap fun child => nodes child.val
termination_by ty.size
decreasing_by exact size_child_lt child.property

theorem nodes_eq (ty : Ty) : ty.nodes = ty :: ty.children.flatMap nodes := by
  have parts : ty.children.flatMap nodes =
      ty.children.attach.flatMap fun child => nodes child.val := by
    conv_lhs => rw [← List.attach_map_subtype_val ty.children]
    rw [List.flatMap_map]
  rw [nodes, parts]

theorem self_mem_nodes (ty : Ty) : ty ∈ ty.nodes := by
  rw [nodes_eq]
  exact .head _

theorem length_flatMap_nodes_of (each : ∀ ty ∈ tys, ty.nodes.length = ty.size) :
    (tys.flatMap nodes).length = sizeAll tys := by
  induction tys with
  | nil => rfl
  | cons ty tys ih =>
      obtain ⟨here, later⟩ := List.forall_mem_cons.mp each
      rw [List.flatMap_cons, List.length_append, here, ih later, sizeAll]

/-- As many nodes as the size of a type says. -/
theorem length_nodes (ty : Ty) : ty.nodes.length = ty.size := by
  induction ty using childrenInduction with
  | step ty ih => rw [nodes_eq, List.length_cons, length_flatMap_nodes_of ih, size_eq]

theorem length_flatMap_nodes (tys : List Ty) : (tys.flatMap nodes).length = sizeAll tys :=
  length_flatMap_nodes_of fun ty _ => ty.length_nodes

theorem nodes_sublist_flatMap (listed : ty ∈ tys) : ty.nodes.Sublist (tys.flatMap nodes) := by
  induction tys with
  | nil => cases listed
  | cons first rest ih =>
      rw [List.flatMap_cons]
      rcases List.mem_cons.mp listed with rfl | later
      · exact List.sublist_append_left _ _
      · exact (ih later).trans (List.sublist_append_right _ _)

/-- A node brings its own nodes along. -/
theorem nodes_sublist (inside : node ∈ ty.nodes) : node.nodes.Sublist ty.nodes := by
  induction ty using childrenInduction with
  | step ty ih =>
      rw [nodes_eq] at inside
      rcases List.mem_cons.mp inside with rfl | below
      · exact List.Sublist.refl _
      · obtain ⟨child, member, further⟩ := List.mem_flatMap.mp below
        rw [nodes_eq ty]
        exact ((ih child member further).trans (nodes_sublist_flatMap member)).cons _

/-- The parts of all listed types are listed. -/
def PartsListed (nodes : List Ty) : Prop := ∀ ty ∈ nodes, ∀ child ∈ ty.children, child ∈ nodes

theorem nodes_sublist_of_mem_flatMap (inside : node ∈ tys.flatMap nodes) :
    node.nodes.Sublist (tys.flatMap nodes) := by
  obtain ⟨ty, listed, within⟩ := List.mem_flatMap.mp inside
  exact (nodes_sublist within).trans (nodes_sublist_flatMap listed)

theorem partsListed_flatMap_nodes (tys : List Ty) : PartsListed (tys.flatMap nodes) := by
  intro node inside child member
  apply (nodes_sublist_of_mem_flatMap inside).subset
  rw [nodes_eq]
  exact .tail _ (List.mem_flatMap.mpr ⟨child, member, child.self_mem_nodes⟩)

end Nodes

section Remains

/-- Types left over from a list: some may be left out, and a union may be replaced by its members. -/
inductive Remains : List Ty → List Ty → Prop
  | nil : Remains [] []
  | drop {ty : Ty} {tys left : List Ty} (rest : Remains tys left) : Remains (ty :: tys) left
  | keep {ty : Ty} {tys left : List Ty} (rest : Remains tys left) : Remains (ty :: tys) (ty :: left)
  | splice {members tys left : List Ty} (rest : Remains (members ++ tys) left) :
    Remains (unionOf members :: tys) left

namespace Remains

variable {members fewer : List Ty}

theorem keepAll (rest : Remains tys left) : Remains (members ++ tys) (members ++ left) := by
  induction members with
  | nil => exact rest
  | cons m members ih => exact ih.keep

theorem refl (tys : List Ty) : Remains tys tys := by
  have all : Remains (tys ++ []) (tys ++ []) := nil.keepAll
  rwa [List.append_nil] at all

/-- What remains are nodes, in their order. -/
theorem sublist_nodes (remains : Remains tys left) : left.Sublist (tys.flatMap nodes) := by
  induction remains with
  | nil => exact .slnil
  | drop _ ih => exact ih.trans (List.sublist_append_right _ _)
  | @keep ty _ _ _ ih =>
      rw [List.flatMap_cons, nodes_eq]
      exact (ih.trans (List.sublist_append_right _ _)).cons_cons ty
  | @splice members tys _ _ ih =>
      rw [List.flatMap_append] at ih
      rw [List.flatMap_cons, nodes_eq]
      exact ih.cons _

theorem of_sublist (remains : Remains tys left) (part : fewer.Sublist left) : Remains tys fewer := by
  induction remains generalizing fewer with
  | nil =>
      rw [List.sublist_nil.mp part]
      exact .nil
  | drop _ ih => exact (ih part).drop
  | keep _ ih =>
      cases part with
      | cons _ part => exact (ih part).drop
      | cons_cons _ part => exact (ih part).keep
  | splice _ ih => exact (ih part).splice

theorem flatMap_unionMembers (remains : Remains tys left) :
    Remains tys (left.flatMap unionMembers) := by
  induction remains with
  | nil => exact .nil
  | drop _ ih => exact ih.drop
  | @keep ty _ _ _ ih =>
      rw [List.flatMap_cons]
      cases ty with
      | unionOf members => exact ih.keepAll.splice
      | _ => exact ih.keep
  | splice _ ih => exact ih.splice

theorem unionMembers (ty : Ty) : Remains [ty] ty.unionMembers := by
  cases ty with
  | unionOf members =>
      have all : Remains (members ++ []) members := by
        rw [List.append_nil]
        exact refl members
      exact all.splice
  | _ => exact refl _

end Remains

theorem keptMembers_sublist (tys : List Ty) : (keptMembers (distinct tys)).Sublist tys :=
  (List.filter_sublist.trans List.filter_sublist).trans distinctFrom_sublist

/-- A node of one of the types, or what is left of such a node when it is a union. -/
def Leftover (tys : List Ty) (ty : Ty) : Prop :=
  ty ∈ tys.flatMap nodes ∨ ∃ node ∈ tys.flatMap nodes, ∃ left, Remains [node] left ∧ ty = unionOf left

/-- All such types, and more. -/
def leftovers (tys : List Ty) : List Ty :=
  tys.flatMap nodes ++ (tys.flatMap nodes).sublists.map unionOf

theorem length_leftovers (tys : List Ty) :
    (leftovers tys).length = sizeAll tys + Nat.pow 2 (sizeAll tys) := by
  rw [leftovers, List.length_append, List.length_map, List.length_sublists, length_flatMap_nodes]
  rfl

namespace Leftover

theorem of_mem (listed : ty ∈ tys) : Leftover tys ty :=
  Or.inl (List.mem_flatMap.mpr ⟨ty, listed, ty.self_mem_nodes⟩)

theorem mem_leftovers (leftover : Leftover tys ty) : ty ∈ leftovers tys := by
  rcases leftover with inside | ⟨node, inside, left, remains, rfl⟩
  · exact List.mem_append_left _ inside
  · apply List.mem_append_right
    have stood : left.Sublist node.nodes := by simpa using remains.sublist_nodes
    exact List.mem_map_of_mem (List.mem_sublists.mpr
      (stood.trans (nodes_sublist_of_mem_flatMap inside)))

theorem child (leftover : Leftover tys ty) (single : ty.isUnion = false) {child : Ty}
    (member : child ∈ ty.children) : Leftover tys child := by
  rcases leftover with inside | ⟨node, _, left, _, rfl⟩
  · exact Or.inl (partsListed_flatMap_nodes tys ty inside child member)
  · cases single

theorem exists_remains (leftover : Leftover tys ty) :
    ∃ node ∈ tys.flatMap nodes, Remains [node] ty.unionMembers := by
  rcases leftover with inside | ⟨node, inside, left, remains, rfl⟩
  · exact ⟨ty, inside, .unionMembers ty⟩
  · exact ⟨node, inside, remains⟩

/-- The union of some members is left of the same node, or it is one of them, `any` or `never`. -/
theorem union (leftover : Leftover tys ty) (keywords : any ∈ tys ∧ never ∈ tys) {some : List Ty}
    (part : some.Sublist ty.unionMembers) : Leftover tys (union some) := by
  obtain ⟨node, inside, remains⟩ := leftover.exists_remains
  rw [union_eq]
  split
  · exact of_mem keywords.1
  · have kept := (remains.of_sublist part).flatMap_unionMembers.of_sublist (keptMembers_sublist _)
    match keptMembers (distinct (some.flatMap unionMembers)), kept with
    | [], _ => exact of_mem keywords.2
    | [only], kept =>
        have stood : only ∈ node.nodes := by simpa using kept.sublist_nodes.subset (.head _)
        exact Or.inl ((nodes_sublist_of_mem_flatMap inside).subset stood)
    | first :: second :: rest, kept => exact Or.inr ⟨node, inside, _, kept, rfl⟩

end Leftover

end Remains

end StructuralTypes.Ty
