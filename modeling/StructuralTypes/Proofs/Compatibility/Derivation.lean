import StructuralTypes.Proofs.Compatibility.Run

set_option autoImplicit false

namespace StructuralTypes

/-- A query is derived inside of the concrete queries `around`. -/
inductive Derivable (aliases : AliasMap) : List Query → Query → Prop
  | settled {around : List Query} {q : Query}
    (answer : (q.concrete aliases).settled? = some true) : Derivable aliases around q
  | cycle {around : List Query} {q : Query} (undecided : (q.concrete aliases).settled? = none)
    (known : around.contains (q.concrete aliases) = true) : Derivable aliases around q
  | all {around : List Query} {q : Query} {demands : List Demand}
    (undecided : (q.concrete aliases).settled? = none)
    (rule : Rule.of aliases (q.concrete aliases) = .allOf demands)
    (possible : Demand.refuse ∉ demands)
    (each : ∀ p, Demand.query p ∈ demands → Derivable aliases (q.concrete aliases :: around) p) :
    Derivable aliases around q
  | any {around : List Query} {q p : Query} {queries : List Query}
    (undecided : (q.concrete aliases).settled? = none)
    (rule : Rule.of aliases (q.concrete aliases) = .anyOf queries) (member : p ∈ queries)
    (premise : Derivable aliases (q.concrete aliases :: around) p) : Derivable aliases around q

theorem contains_cons_mono {around more : List Query} {q : Query}
    (inside : ∀ p : Query, around.contains p = true → more.contains p = true) (p : Query)
    (known : (q :: around).contains p = true) : (q :: more).contains p = true := by
  rw [List.contains_cons, Bool.or_eq_true] at known ⊢
  exact known.imp id (inside p)

namespace Derivable

variable {aliases : AliasMap} {around : List Query} {q : Query}

theorem byRule (undecided : (q.concrete aliases).settled? = none)
    (met : (Rule.of aliases (q.concrete aliases)).Holds
      (Derivable aliases (q.concrete aliases :: around))) : Derivable aliases around q := by
  cases rule : Rule.of aliases (q.concrete aliases) with
  | allOf demands =>
      rw [rule] at met
      exact .all undecided rule (fun refused => met .refuse refused) (fun p asked => met (.query p) asked)
  | anyOf queries =>
      rw [rule] at met
      obtain ⟨p, member, premise⟩ := met
      exact .any undecided rule member premise

theorem ofJustified (justified : Justified aliases
    (fun value target => Derivable aliases (q.concrete aliases :: around) ⟨value, target⟩)
      (q.concrete aliases).value (q.concrete aliases).target) : Derivable aliases around q := by
  rcases (justified_iff (q.concrete aliases)).mp justified with answer | ⟨undecided, met⟩
  · exact .settled answer
  · exact .byRule undecided met

/-- Induction on derivations along the rules as a relation. -/
theorem justifiedInduction {motive : List Query → Query → Prop}
    (cycle : ∀ around q, (q.concrete aliases).settled? = none →
      around.contains (q.concrete aliases) = true → motive around q)
    (step : ∀ around q, Justified aliases
      (fun value target => Derivable aliases (q.concrete aliases :: around) ⟨value, target⟩ ∧
        motive (q.concrete aliases :: around) ⟨value, target⟩)
      (q.concrete aliases).value (q.concrete aliases).target → motive around q)
    (derived : Derivable aliases around q) : motive around q := by
  induction derived with
  | settled answer => exact step _ _ ((justified_iff _).mpr (Or.inl answer))
  | cycle undecided known => exact cycle _ _ undecided known
  | @all around q demands undecided rule possible each ih =>
      refine step around q ((justified_iff _).mpr (Or.inr ⟨undecided, ?_⟩))
      rw [rule]
      intro demand asked
      cases demand with
      | refuse => exact possible asked
      | query p => exact ⟨each p asked, ih p asked⟩
  | @any around q p queries undecided rule member premise ih =>
      refine step around q ((justified_iff _).mpr (Or.inr ⟨undecided, ?_⟩))
      rw [rule]
      exact ⟨p, member, premise, ih⟩

/-- A derivation depends on the concrete query only. -/
theorem congr {p : Query} (same : q.concrete aliases = p.concrete aliases)
    (derived : Derivable aliases around q) : Derivable aliases around p := by
  cases derived with
  | settled answer => exact .settled (same ▸ answer)
  | cycle undecided known => exact .cycle (same ▸ undecided) (same ▸ known)
  | all undecided rule possible each =>
      exact .all (same ▸ undecided) (same ▸ rule) possible (same ▸ each)
  | any undecided rule member premise =>
      exact .any (same ▸ undecided) (same ▸ rule) member (same ▸ premise)

/-- More queries around a derivation do no harm. -/
theorem weaken {more : List Query} (derived : Derivable aliases around q)
    (inside : ∀ p : Query, around.contains p = true → more.contains p = true) :
    Derivable aliases more q := by
  induction derived generalizing more with
  | settled answer => exact .settled answer
  | cycle undecided known => exact .cycle undecided (inside _ known)
  | all undecided rule possible each ih =>
      refine .all undecided rule possible fun p asked => ih p asked ?_
      exact fun r => contains_cons_mono inside r
  | any undecided rule member premise ih =>
      refine .any undecided rule member (ih ?_)
      exact fun r => contains_cons_mono inside r

end Derivable

namespace Context

variable (ctx : Context)

/-- A positive answer comes with a derivation inside of the queries that the walk is inside of,
whatever limits the run has hit elsewhere. -/
theorem derivable_of_check {levels : Nat} {q : Query} {walk : Walk Query}
    (accepted : (ctx.check levels q walk).1 = true) : Derivable ctx.aliases walk.visiting q := by
  induction levels generalizing q walk with
  | zero => cases accepted
  | succ levels ih =>
      unfold check at accepted
      dsimp only at accepted
      split at accepted
      · rename_i answer settled
        exact .settled (settled.trans (congrArg some accepted))
      · rename_i undecided
        have request := walk.enter_enters (q.concrete ctx.aliases)
        generalize walk.enter (q.concrete ctx.aliases) = outcome at request accepted
        cases request with
        | entered new shallow room =>
            have told := Rule.run_true (ctx.check_steady levels) _ _ accepted
            refine .byRule undecided (told.mono ?_)
            rintro p ⟨inner, later, answered⟩
            have premise := ih answered
            rw [later.visiting] at premise
            exact premise
        | cycle known => exact .cycle undecided known
        | tooDeep => cases accepted
        | tooMany => cases accepted

/-- What is derived is granted on every walk that is inside of the same queries and maybe more. -/
theorem granted_of_derivable {around : List Query} {q : Query}
    (derived : Derivable ctx.aliases around q) {levels : Nat} {walk : Walk Query}
    (room : walk.Room levels)
    (inside : ∀ p : Query, around.contains p = true → walk.visiting.contains p = true) :
    Granted (ctx.check levels q walk) := by
  -- Going into a premise puts the same query around it on both sides, so containment persists.
  induction derived generalizing levels walk with
  | settled answer =>
      obtain ⟨levels, rfl⟩ := Nat.exists_eq_add_one.mpr room.positive
      exact ctx.check_granted (fun _ => False) room (Or.inl answer) (fun _ impossible => impossible.elim)
  | cycle undecided known =>
      obtain ⟨levels, rfl⟩ := Nat.exists_eq_add_one.mpr room.positive
      exact ctx.check_granted_of_visiting undecided (inside _ known)
  | @all around q demands undecided rule possible each ih =>
      obtain ⟨levels, rfl⟩ := Nat.exists_eq_add_one.mpr room.positive
      refine ctx.check_granted (fun p => Demand.query p ∈ demands) room
        (Or.inr ⟨undecided, ?_⟩) ?_
      · rw [rule]
        intro demand asked
        cases demand with
        | refuse => exact possible asked
        | query p => exact asked
      · intro p asked inner innerRoom same
        apply ih p asked innerRoom
        rw [same]
        exact contains_cons_mono inside
  | @any around q p queries undecided rule member premise ih =>
      obtain ⟨levels, rfl⟩ := Nat.exists_eq_add_one.mpr room.positive
      refine ctx.check_granted (· = p) room (Or.inr ⟨undecided, ?_⟩) ?_
      · rw [rule]
        exact ⟨p, member, rfl⟩
      · rintro _ rfl inner innerRoom same
        apply ih innerRoom
        rw [same]
        exact contains_cons_mono inside

/-- A positive answer comes with a derivation that holds inside of any queries. -/
theorem derivable_of_compatible {value target : Ty} {around : List Query}
    (accepted : (ctx.compatible value target).value = true) :
    Derivable ctx.aliases around ⟨value, target⟩ := by
  rw [compatible_value] at accepted
  have derived : Derivable ctx.aliases [] ⟨value, target⟩ := ctx.derivable_of_check accepted
  refine derived.weaken fun p known => ?_
  cases known

/-- A query that is granted wherever it is asked. -/
def Accepts (value target : Ty) : Prop :=
  ∀ (levels : Nat) (walk : Walk Query), walk.Room levels →
    Granted (ctx.check levels ⟨value, target⟩ walk)

theorem compatible_of_accepts {value target : Ty} (granted : ctx.Accepts value target)
    (finished : (ctx.compatible value target).cut = false) :
    (ctx.compatible value target).value = true := by
  rcases granted ctx.levels ctx.walk ctx.room_walk with yes | cut
  · rw [compatible_value, yes]
  · rw [compatible_cut, cut] at finished
    cases finished

theorem accepts_of_derivable {value target : Ty}
    (derived : Derivable ctx.aliases [] ⟨value, target⟩) : ctx.Accepts value target := by
  intro levels walk room
  exact ctx.granted_of_derivable derived room fun p known => by cases known

theorem compatible_of_derivable {value target : Ty}
    (derived : Derivable ctx.aliases [] ⟨value, target⟩)
    (finished : (ctx.compatible value target).cut = false) :
    (ctx.compatible value target).value = true :=
  ctx.compatible_of_accepts (ctx.accepts_of_derivable derived) finished

end Context

end StructuralTypes
