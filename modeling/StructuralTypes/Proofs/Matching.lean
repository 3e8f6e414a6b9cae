import Mathlib.Data.List.Forall2

set_option autoImplicit false

namespace StructuralTypes

variable {α β γ δ : Type}

/-- Every item of the first list has a partner in the second. -/
def Covers (related : α → β → Prop) (as : List α) (bs : List β) : Prop :=
  ∀ a ∈ as, ∃ b ∈ bs, related a b

namespace Covers

variable {related : α → β → Prop} {as as' : List α} {bs bs' : List β}

theorem append (front : Covers related as bs) (back : Covers related as' bs') :
    Covers related (as ++ as') (bs ++ bs') := by
  intro a member
  rcases List.mem_append.mp member with first | second
  · obtain ⟨b, inside, pair⟩ := front a first
    exact ⟨b, List.mem_append_left _ inside, pair⟩
  · obtain ⟨b, inside, pair⟩ := back a second
    exact ⟨b, List.mem_append_right _ inside, pair⟩

theorem flatMap {parted : γ → δ → Prop} {parts : α → List γ} {parts' : β → List δ}
    (covers : Covers related as bs)
    (respects : ∀ a ∈ as, ∀ b ∈ bs, related a b → Covers parted (parts a) (parts' b)) :
    Covers parted (as.flatMap parts) (bs.flatMap parts') := by
  intro part member
  obtain ⟨a, memberA, inside⟩ := List.mem_flatMap.mp member
  obtain ⟨b, memberB, pair⟩ := covers a memberA
  obtain ⟨other, found, same⟩ := respects a memberA b memberB pair part inside
  exact ⟨other, List.mem_flatMap.mpr ⟨b, memberB, found⟩, same⟩

theorem filter {keep : α → Bool} {keep' : β → Bool} (covers : Covers related as bs)
    (respects : ∀ a ∈ as, ∀ b ∈ bs, related a b → keep a = true → keep' b = true) :
    Covers related (as.filter keep) (bs.filter keep') := by
  intro a member
  obtain ⟨inside, kept⟩ := List.mem_filter.mp member
  obtain ⟨b, found, pair⟩ := covers a inside
  exact ⟨b, List.mem_filter.mpr ⟨found, respects a inside b found pair kept⟩, pair⟩

theorem of_forall₂ (each : List.Forall₂ related as bs) : Covers related as bs := by
  induction each with
  | nil =>
      intro a member
      cases member
  | @cons a b as bs pair rest ih =>
      intro c member
      rcases List.mem_cons.mp member with rfl | later
      · exact ⟨b, .head _, pair⟩
      · obtain ⟨d, inside, same⟩ := ih c later
        exact ⟨d, .tail _ inside, same⟩

/-- No two items share a partner. -/
def Single (related : α → β → Prop) (as : List α) (bs : List β) : Prop :=
  as.Pairwise fun a c => ∀ b ∈ bs, related a b → ¬ related c b

/-- When no two items share a partner, the second list is the partners, in the order of the items,
and some more. -/
theorem exists_perm (covers : Covers related as bs) (single : Single related as bs) :
    ∃ partners rest, List.Perm (partners ++ rest) bs ∧ List.Forall₂ related as partners := by
  induction as generalizing bs with
  | nil => exact ⟨[], bs, .refl bs, .nil⟩
  | cons a as ih =>
      obtain ⟨b, member, pair⟩ := covers a (.head _)
      obtain ⟨front, back, rfl⟩ := List.append_of_mem member
      obtain ⟨alone, later⟩ := List.pairwise_cons.mp single
      have others : ∀ d, d ∈ front ++ back → d ∈ front ++ b :: back := by
        intro d inside
        simp only [List.mem_append, List.mem_cons] at inside ⊢
        tauto
      have remaining : Covers related as (front ++ back) := by
        intro c inside
        obtain ⟨d, found, same⟩ := covers c (.tail _ inside)
        have different : d ≠ b := by
          rintro rfl
          exact alone c inside d member pair same
        refine ⟨d, ?_, same⟩
        simpa [different] using found
      have stillSingle : Single related as (front ++ back) :=
        later.imp fun apart d inside => apart d (others d inside)
      obtain ⟨partners, rest, permuted, each⟩ := ih remaining stillSingle
      exact ⟨b :: partners, rest, (permuted.cons b).trans List.perm_middle.symm, .cons pair each⟩

theorem length_le (covers : Covers related as bs) (single : Single related as bs) :
    as.length ≤ bs.length := by
  obtain ⟨partners, rest, permuted, each⟩ := covers.exists_perm single
  have total := permuted.length_eq
  have counts := each.length_eq
  rw [List.length_append] at total
  omega

/-- With equally many items on both sides, the second list is a rearrangement of the partners. -/
theorem exists_perm_of_length (covers : Covers related as bs) (single : Single related as bs)
    (counts : as.length = bs.length) :
    ∃ partners, List.Perm partners bs ∧ List.Forall₂ related as partners := by
  obtain ⟨partners, rest, permuted, each⟩ := covers.exists_perm single
  have total := permuted.length_eq
  have matched := each.length_eq
  rw [List.length_append] at total
  have nothing : rest = [] := List.eq_nil_of_length_eq_zero (by omega)
  rw [nothing, List.append_nil] at permuted
  exact ⟨partners, permuted, each⟩

/-- With equally many items on both sides, every item of the second list is somebody's partner. -/
theorem back (covers : Covers related as bs) (single : Single related as bs)
    (counts : as.length = bs.length) : Covers (fun b a => related a b) bs as := by
  obtain ⟨partners, permuted, each⟩ := covers.exists_perm_of_length single counts
  intro b member
  exact of_forall₂ each.flip b (permuted.mem_iff.mpr member)

end Covers

end StructuralTypes
