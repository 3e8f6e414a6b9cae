import StructuralTypes.Compatibility
import StructuralTypes.Proofs.Compatibility.Justified
import StructuralTypes.Proofs.Walk

set_option autoImplicit false

namespace StructuralTypes

instance : ReflBEq Query where
  rfl {q} := by
    change (q.value.same q.value && q.target.same q.target) = true
    rw [Ty.same_self, Ty.same_self]
    rfl

/-- The answer is yes, or it was given up at a limit. -/
def Granted (result : Bool × Walk Query) : Prop := result.1 = true ∨ result.2.exceeded = true

namespace Rule

/-- Answering a query leaves the walk inside of the same keys. -/
def Steady (answer : Answer) : Prop :=
  ∀ (q : Query) (walk : Walk Query), walk.Follows (answer q walk).2

section Runs

variable {answer : Answer}

section Kept

variable (kept : Walk Query → Walk Query → Prop) (same : ∀ walk, kept walk walk)
  (join : ∀ first second third, kept first second → kept second third → kept first third)
  (each : ∀ q walk, kept walk (answer q walk).2)

include same join each

theorem runAll_keeps (demands : List Demand) (walk : Walk Query) :
    kept walk (runAll answer demands walk).2 := by
  induction demands generalizing walk with
  | nil => exact same walk
  | cons demand demands ih =>
      cases demand with
      | refuse => exact same walk
      | query q =>
          have first := each q walk
          unfold runAll
          split
          · rename_i after answered
            rw [answered] at first
            exact join _ _ _ first (ih after)
          · rename_i after answered
            rw [answered] at first
            exact first

theorem runAny_keeps (queries : List Query) (walk : Walk Query) :
    kept walk (runAny answer queries walk).2 := by
  induction queries generalizing walk with
  | nil => exact same walk
  | cons q queries ih =>
      have first := each q walk
      unfold runAny
      split
      · rename_i after answered
        rw [answered] at first
        exact first
      · rename_i after answered
        rw [answered] at first
        exact join _ _ _ first (ih after)

/-- What every answer leaves between the walks before and after it is there for a whole rule. -/
theorem run_keeps (rule : Rule) (walk : Walk Query) : kept walk (rule.run answer walk).2 := by
  cases rule with
  | allOf demands => exact runAll_keeps kept same join each demands walk
  | anyOf queries => exact runAny_keeps kept same join each queries walk

end Kept

section Steady

variable (steady : Steady answer)

include steady

theorem run_follows (rule : Rule) (walk : Walk Query) : walk.Follows (rule.run answer walk).2 :=
  run_keeps Walk.Follows Walk.Follows.refl (fun _ _ _ => Walk.Follows.trans) steady rule walk

/-- A rule that answers yes has been told yes often enough, always inside of the same keys. -/
theorem run_true (rule : Rule) (walk : Walk Query) (accepted : (rule.run answer walk).1 = true) :
    rule.Holds fun q => ∃ inner, walk.Follows inner ∧ (answer q inner).1 = true := by
  cases rule with
  | allOf demands =>
      change (runAll answer demands walk).1 = true at accepted
      induction demands generalizing walk with
      | nil => simp [Holds]
      | cons demand demands ih =>
          cases demand with
          | refuse => cases accepted
          | query q =>
              have first := steady q walk
              unfold runAll at accepted
              split at accepted
              · rename_i after answered
                rw [answered] at first
                have rest : (allOf demands).Holds _ := ih after accepted
                refine List.forall_mem_cons.mpr ⟨⟨walk, .refl walk, ?_⟩, rest.mono ?_⟩
                · rw [answered]
                · rintro p ⟨inner, later, told⟩
                  exact ⟨inner, first.trans later, told⟩
              · cases accepted
  | anyOf queries =>
      change (runAny answer queries walk).1 = true at accepted
      induction queries generalizing walk with
      | nil => cases accepted
      | cons q queries ih =>
          have first := steady q walk
          unfold runAny at accepted
          split at accepted
          · rename_i after answered
            refine ⟨q, List.mem_cons_self, walk, .refl walk, ?_⟩
            rw [answered]
          · rename_i after answered
            rw [answered] at first
            obtain ⟨p, member, inner, later, told⟩ := ih after accepted
            exact ⟨p, List.mem_cons_of_mem _ member, inner, first.trans later, told⟩

/-- A rule that holds answers yes if every query that holds is answered yes, unless some answer on the
way leaves a mark on the walk that no other answer takes away. -/
theorem run_yes_or (mark : Walk Query → Prop)
    (lasting : ∀ q walk, mark walk → mark (answer q walk).2) (rule : Rule) (walk : Walk Query)
    (holds : Query → Prop)
    (premises : ∀ q, holds q → ∀ inner, walk.Follows inner →
      (answer q inner).1 = true ∨ mark (answer q inner).2)
    (met : rule.Holds holds) :
    (rule.run answer walk).1 = true ∨ mark (rule.run answer walk).2 := by
  cases rule with
  | allOf demands =>
      change (runAll answer demands walk).1 = true ∨ mark (runAll answer demands walk).2
      induction demands generalizing walk with
      | nil => exact Or.inl rfl
      | cons demand demands ih =>
          cases demand with
          | refuse => exact absurd (met .refuse List.mem_cons_self) id
          | query q =>
              obtain ⟨asked, rest⟩ := List.forall_mem_cons.mp met
              have told := premises q asked walk (.refl walk)
              have first := steady q walk
              unfold runAll
              split
              · rename_i after answered
                rw [answered] at first
                exact ih after (fun p known inner later => premises p known inner (first.trans later))
                  rest
              · rename_i after answered
                rw [answered] at told
                exact told
  | anyOf queries =>
      change (runAny answer queries walk).1 = true ∨ mark (runAny answer queries walk).2
      induction queries generalizing walk with
      | nil =>
          obtain ⟨q, member, _⟩ := met
          cases member
      | cons q queries ih =>
          have first := steady q walk
          unfold runAny
          split
          · exact Or.inl rfl
          · rename_i after answered
            obtain ⟨p, member, known⟩ := met
            rcases List.mem_cons.mp member with rfl | later
            · have told := premises p known walk (.refl walk)
              rw [answered] at told first
              rcases told with yes | cut
              · cases yes
              · exact Or.inr (runAny_keeps (fun before after => mark before → mark after) (fun _ => id)
                  (fun _ _ _ one two => two ∘ one) lasting queries after cut)
            · rw [answered] at first
              exact ih after (fun p known inner later => premises p known inner (first.trans later))
                ⟨p, later, known⟩

/-- A rule that holds answers yes if every query that holds is answered yes, unless a limit is hit
on the way. -/
theorem run_granted (rule : Rule) (walk : Walk Query) (holds : Query → Prop)
    (premises : ∀ q, holds q → ∀ inner, walk.Follows inner → Granted (answer q inner))
    (met : rule.Holds holds) : Granted (rule.run answer walk) :=
  run_yes_or steady (fun walk => walk.exceeded = true) (fun q walk => (steady q walk).exceeded) rule
    walk holds premises met

end Steady

end Runs

end Rule

namespace Context

variable (ctx : Context)

theorem check_steady (levels : Nat) : Rule.Steady (ctx.check levels) := by
  induction levels with
  | zero =>
      intro q walk
      exact .refl walk
  | succ levels ih =>
      intro q walk
      unfold check
      dsimp only
      split
      · exact .refl walk
      · have request := walk.enter_enters (q.concrete ctx.aliases)
        generalize walk.enter (q.concrete ctx.aliases) = outcome at request
        cases request with
        | entered new shallow room => exact Walk.follows_leave (Rule.run_follows ih _ _)
        | cycle known => exact walk.follows_counted
        | tooDeep => exact walk.follows_refused
        | tooMany => exact walk.follows_refused

/-- A query whose rule holds is answered yes if its premises are, inside of the query. -/
theorem check_granted {levels : Nat} {q : Query} {walk : Walk Query} (holds : Query → Prop)
    (room : walk.Room (levels + 1))
    (justified : (q.concrete ctx.aliases).settled? = some true ∨
      (q.concrete ctx.aliases).settled? = none ∧
        (Rule.of ctx.aliases (q.concrete ctx.aliases)).Holds holds)
    (premises : ∀ p, holds p → ∀ inner : Walk Query, inner.Room levels →
      inner.visiting = q.concrete ctx.aliases :: walk.visiting →
        Granted (ctx.check levels p inner)) :
    Granted (ctx.check (levels + 1) q walk) := by
  unfold check
  dsimp only
  rcases justified with settled | ⟨settled, met⟩
  · rw [settled]
    exact Or.inl rfl
  · rw [settled]
    have request := walk.enter_enters (q.concrete ctx.aliases)
    generalize walk.enter (q.concrete ctx.aliases) = outcome at request
    cases request with
    | entered new shallow space =>
        have within := room.inside (q.concrete ctx.aliases) shallow space
        have granted := Rule.run_granted (ctx.check_steady levels) _ _ holds
          (fun p known inner later => premises p known inner (within.follows later) later.visiting)
          met
        exact granted
    | cycle known => exact Or.inl rfl
    | tooDeep => exact Or.inr rfl
    | tooMany => exact Or.inr rfl

/-- A query that the walk is inside of is answered yes. -/
theorem check_granted_of_visiting {levels : Nat} {q : Query} {walk : Walk Query}
    (undecided : (q.concrete ctx.aliases).settled? = none)
    (known : walk.visiting.contains (q.concrete ctx.aliases) = true) :
    Granted (ctx.check (levels + 1) q walk) := by
  unfold check
  dsimp only
  rw [undecided]
  have request := walk.enter_enters (q.concrete ctx.aliases)
  generalize walk.enter (q.concrete ctx.aliases) = outcome at request
  cases request with
  | entered new shallow space =>
      rw [known] at new
      cases new
  | cycle known => exact Or.inl rfl
  | tooDeep => exact Or.inr rfl
  | tooMany => exact Or.inr rfl

theorem compatible_value (value target : Ty) :
    (ctx.compatible value target).value = (ctx.check ctx.levels ⟨value, target⟩ ctx.walk).1 := rfl

theorem compatible_cut (value target : Ty) :
    (ctx.compatible value target).cut =
      (ctx.check ctx.levels ⟨value, target⟩ ctx.walk).2.exceeded := rfl

/-- The answer depends on the concrete query only. -/
theorem check_congr {q p : Query} (same : q.concrete ctx.aliases = p.concrete ctx.aliases)
    (levels : Nat) (walk : Walk Query) : ctx.check levels q walk = ctx.check levels p walk := by
  cases levels with
  | zero => rfl
  | succ levels => rw [check, check, same]

theorem compatible_congr {value target value' target' : Ty}
    (same : Query.concrete ⟨value, target⟩ ctx.aliases =
      Query.concrete ⟨value', target'⟩ ctx.aliases) :
    ctx.compatible value target = ctx.compatible value' target' := by
  rw [compatible, compatible, ctx.check_congr same]

/-- The walk of a new comparison has room for all of its levels. -/
theorem room_walk : ctx.walk.Room ctx.levels where
  balanced := rfl
  limited := Nat.zero_le _
  enough := Nat.lt_succ_self _

end Context

end StructuralTypes
