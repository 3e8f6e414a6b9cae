import StructuralTypes.Proofs.Merge.Visits

set_option autoImplicit false

namespace StructuralTypes

theorem LeafOf.exists_same {aliases : AliasMap} {a b leaf : Ty} (wf : a.WellFormed) (equal : a.Same b)
    (inside : LeafOf aliases a leaf) : ∃ other, LeafOf aliases b other ∧ leaf.Same other := by
  induction inside generalizing b with
  | @member members m leaf listed _ ih =>
      obtain ⟨others, rfl, set⟩ := Ty.exists_intersectionOf_of_same wf equal
      obtain ⟨n, found, same⟩ := set.forth m listed
      obtain ⟨other, reached, pair⟩ := ih (wf.intersectionMember listed) same
      exact ⟨other, .member found reached, pair⟩
  | @named name leaf resolved inside _ =>
      cases AliasMap.eq_ref_of_refName? ((AliasMap.refName?_same equal).symm.trans rfl)
      exact ⟨leaf, .named resolved inside, Ty.same_self leaf⟩
  | @stuck name other resolved =>
      cases AliasMap.eq_ref_of_refName? ((AliasMap.refName?_same equal).symm.trans rfl)
      exact ⟨_, .stuck resolved, Ty.same_self _⟩
  | @leaf ty single unnamed =>
      refine ⟨b, .leaf ?_ ?_, equal⟩
      · rw [← Ty.isIntersection_same equal, single]
      · rw [← AliasMap.refName?_same equal, unnamed]

namespace AliasMap

section Reordered

variable {aliases : AliasMap} {a b : Ty} (wfA : a.WellFormed) (equal : a.Same b)

include wfA equal

theorem leaves_forth : Covers Ty.Same (aliases.leaves a) (aliases.leaves b) := by
  intro leaf member
  obtain ⟨other, reached, same⟩ := (mem_leaves_iff.mp member).exists_same wfA equal
  exact ⟨other, mem_leaves_iff.mpr reached, same⟩

theorem leaves_back (wf : aliases.WellFormed) :
    Covers (fun other leaf => Ty.Same leaf other) (aliases.leaves b) (aliases.leaves a) := by
  intro other member
  have wfB := wfA.of_same equal
  have wfOther := leaves_wellFormed wf wfB other member
  obtain ⟨leaf, listed, same⟩ := leaves_forth wfB (Ty.same_symm wfA wfB equal) other member
  exact ⟨leaf, listed, Ty.same_symm wfOther (wfOther.of_same same) same⟩

end Reordered

end AliasMap

end StructuralTypes
