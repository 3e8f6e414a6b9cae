import StructuralTypes.Proofs.Alias.Nesting
import StructuralTypes.Proofs.Compatibility.Established
import StructuralTypes.Proofs.Compatibility.Immediate

/-!
Where no name is met again inside of what it stands for, the queries that a rule asks are smaller
than the one that it answers, so a derivation never comes back to a query that it is inside of.
-/

set_option autoImplicit false

namespace StructuralTypes

namespace Query

/-- A bound for a concrete query that gets smaller with every rule. Levels count twice because an
intersection is merged without losing a level: it only is no intersection any more. -/
def Weighs (aliases : AliasMap) (weight : Nat) (q : Query) : Prop :=
  ∃ a b, Nests aliases a q.value ∧ Nests aliases b q.target ∧
    2 * (a + b) + q.value.isIntersection.toNat ≤ weight

variable {aliases : AliasMap} {weight : Nat} {q : Query}

theorem Weighs.mono {more : Nat} (weighs : q.Weighs aliases weight) (fewer : weight ≤ more) :
    q.Weighs aliases more := by
  obtain ⟨a, b, value, target, bound⟩ := weighs
  exact ⟨a, b, value, target, bound.trans fewer⟩

theorem Weighs.of_same {p : Query} (weighs : q.Weighs aliases weight) (wf : q.WellFormed)
    (value : q.value.Same p.value) (target : q.target.Same p.target) : p.Weighs aliases weight := by
  obtain ⟨a, b, nestsValue, nestsTarget, bound⟩ := weighs
  refine ⟨a, b, nestsValue.of_same wf.value value, nestsTarget.of_same wf.target target, ?_⟩
  rw [← Ty.isIntersection_same value]
  exact bound

theorem weighs_concrete {a b : Nat} (value : Nests aliases a q.value)
    (target : Nests aliases b q.target) : (q.concrete aliases).Weighs aliases (2 * (a + b) + 1) :=
  ⟨a, b, value.concrete, target.concrete, Nat.add_le_add_left (Bool.toNat_le _) _⟩

theorem exists_weighs (nonrecursive : aliases.Nonrecursive) (q : Query) :
    ∃ weight, q.Weighs aliases weight := by
  obtain ⟨a, value⟩ := nonrecursive.exists_nests q.value
  obtain ⟨b, target⟩ := nonrecursive.exists_nests q.target
  exact ⟨_, a, b, value, target, Nat.le_refl _⟩

end Query

/-- What a rule asks about weighs less than what it answers. -/
theorem Premise.weighs {aliases : AliasMap} (wf : aliases.WellFormed) {q p : Query}
    (wfQuery : q.WellFormed) {weight : Nat} (weighs : q.Weighs aliases weight)
    (premise : Premise aliases q p) : ∃ less < weight, (p.concrete aliases).Weighs aliases less := by
  obtain ⟨a, b, nestsValue, nestsTarget, bound⟩ := weighs
  obtain ⟨a, rfl⟩ := Nat.exists_eq_add_one.mpr nestsValue.positive
  obtain ⟨b, rfl⟩ := Nat.exists_eq_add_one.mpr nestsTarget.positive
  have lighter {v t : Nat} (value : Nests aliases v p.value) (target : Nests aliases t p.target)
      (fewer : v + t ≤ a + b + 1) : ∃ less < weight, (p.concrete aliases).Weighs aliases less :=
    ⟨_, by omega, Query.weighs_concrete value target⟩
  cases premise with
  | value own => exact lighter (nestsValue.child own) nestsTarget (by omega)
  | target other => exact lighter nestsValue (nestsTarget.child other) (by omega)
  | parts own other => exact lighter (nestsValue.child own) (nestsTarget.child other) (by omega)
  | back own other => exact lighter (nestsTarget.child other) (nestsValue.child own) (by omega)
  | slot own other => exact lighter (nestsValue.child own) (nestsTarget.child other).declared (by omega)
  | @merged members target merged merges =>
      have plain : aliases.concrete (.object merged) = .object merged :=
        AliasMap.concrete_of_asShape? rfl
      refine ⟨2 * (a + 1 + (b + 1)), bound, a + 1, b + 1, ?_, nestsTarget.concrete, ?_⟩
      · exact (nestsValue.merge wf wfQuery.value merges).concrete
      · rw [Query.concrete, plain]
        exact Nat.le_refl _

namespace Derivable

variable {aliases : AliasMap} {value target : Ty} {motive : Ty → Ty → Prop}

/-- What follows by a rule from derived queries is derived. -/
theorem of_justified (justified : Justified aliases
    (fun v t => Derivable aliases [] ⟨v, t⟩) (aliases.concrete value) (aliases.concrete target)) :
    Derivable aliases [] ⟨value, target⟩ :=
  ofJustified (justified.mono fun _ _ derived => derived.weaken nofun)

variable (wf : aliases.WellFormed)

include wf

/-- Equal types are compatible. -/
theorem of_same (wfQuery : Query.WellFormed ⟨value, target⟩) (same : value.Same target) :
    Derivable aliases [] ⟨value, target⟩ :=
  .settled (Query.settled?_of_same (AliasMap.concrete_same wf wfQuery.value wfQuery.target same))

/-- Induction along a derivation inside of queries that all weigh more than the derived one. -/
theorem weightInduction
    (step : ∀ value target, Query.WellFormed ⟨value, target⟩ → Justified aliases
      (fun v t => Derivable aliases [] ⟨v, t⟩ ∧ motive v t)
      (aliases.concrete value) (aliases.concrete target) → motive value target)
    {weight : Nat} {around : List Query} {q : Query} (derived : Derivable aliases around q)
    (wfQuery : q.WellFormed) (weighs : (q.concrete aliases).Weighs aliases weight)
    (heavier : ∀ p ∈ around, ¬ p.Weighs aliases weight) :
    Derivable aliases [] q ∧ motive q.value q.target := by
  induction weight using Nat.strongRecOn generalizing around q with
  | ind weight ih =>
      by_cases lighter : ∃ less < weight, (q.concrete aliases).Weighs aliases less
      · obtain ⟨less, fewer, weighsLess⟩ := lighter
        refine ih less fewer derived wfQuery weighsLess fun p member tooLight => ?_
        exact heavier p member (tooLight.mono fewer.le)
      · -- The query has no smaller weight than this one, so it is too heavy to come back.
        have wfConcrete := wfQuery.concrete wf
        rcases derived.justified with known | justified
        · obtain ⟨p, member, value, target⟩ := (contains_iff _ _).mp known
          exact absurd (weighs.of_same wfConcrete value target) (heavier p member)
        · have premises : Justified aliases
              (fun v t => Derivable aliases [] ⟨v, t⟩ ∧ motive v t)
              (aliases.concrete q.value) (aliases.concrete q.target) := by
            refine (justified_iff (q.concrete aliases)).mpr ?_
            refine ((justified_iff (q.concrete aliases)).mp justified).imp_right fun byRule => ?_
            refine ⟨byRule.1, byRule.2.mono_of_mem fun p asked inside => ?_⟩
            have wfPremise := Rule.of_wellFormed wf wfConcrete p asked
            obtain ⟨less, fewer, weighsLess⟩ :=
              (Rule.premise_of_mem asked).weighs wf wfConcrete weighs
            refine ih less fewer inside wfPremise weighsLess (List.forall_mem_cons.mpr ⟨?_, ?_⟩)
            · exact fun tooLight => lighter ⟨less, fewer, tooLight⟩
            · exact fun r member tooLight => heavier r member (tooLight.mono fewer.le)
          exact ⟨of_justified (premises.mono fun v t known => known.1),
            step q.value q.target wfQuery premises⟩

variable (nonrecursive : aliases.Nonrecursive)

include nonrecursive

/-- Without recursion there is induction along derivations, rule by rule. -/
theorem finiteInduction
    (step : ∀ value target, Query.WellFormed ⟨value, target⟩ → Justified aliases
      (fun v t => Derivable aliases [] ⟨v, t⟩ ∧ motive v t)
      (aliases.concrete value) (aliases.concrete target) → motive value target)
    (wfQuery : Query.WellFormed ⟨value, target⟩) (derived : Derivable aliases [] ⟨value, target⟩) :
    motive value target := by
  obtain ⟨weight, weighs⟩ := Query.exists_weighs nonrecursive (Query.concrete ⟨value, target⟩ aliases)
  exact (weightInduction wf step derived wfQuery weighs nofun).2

/-- Without recursion what is derived follows by a rule from what is derived. -/
theorem justified_of_nonrecursive (wfQuery : Query.WellFormed ⟨value, target⟩)
    (derived : Derivable aliases [] ⟨value, target⟩) : Justified aliases
      (fun v t => Derivable aliases [] ⟨v, t⟩) (aliases.concrete value) (aliases.concrete target) := by
  refine finiteInduction (motive := fun value target => Justified aliases
    (fun v t => Derivable aliases [] ⟨v, t⟩) (aliases.concrete value) (aliases.concrete target))
      wf nonrecursive ?_ wfQuery derived
  intro value target _ premises
  exact premises.mono fun v t known => known.1

end Derivable

namespace Context

variable (ctx : Context)

/-- A comparison that is not cut short finds out what can be derived. -/
theorem compatible_iff_derivable {value target : Ty}
    (finished : (ctx.compatible value target).cut = false) :
    (ctx.compatible value target).value = true ↔ Derivable ctx.aliases [] ⟨value, target⟩ := by
  constructor
  · exact fun accepted => ctx.derivable_of_compatible accepted
  · exact fun derived => ctx.compatible_of_derivable derived finished

end Context

end StructuralTypes
