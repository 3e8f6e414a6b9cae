import StructuralTypes.Proofs.Compatibility.Run

/-!
A run that hits a limit is cut short somewhere, and a greater limit lets it go on there. What it has
found out until then is not taken back, because a refusal is never a reason to accept anything. So a
positive answer stays positive, unless the longer run uses up its requests.
-/

set_option autoImplicit false

namespace StructuralTypes

namespace Walk

variable {Key : Type}

/-- The walk under another depth limit. -/
def withDepth (walk : Walk Key) (depth : Nat) : Walk Key :=
  { walk with limits := { walk.limits with depth := depth } }

/-- A request that is granted is granted on a walk inside of the same keys that may go deeper, unless
that walk runs out of requests. -/
theorem Enters.wider [BEq Key] {walk wide : Walk Key} {key : Key} {outcome wideOutcome : Entry × Walk Key}
    (first : walk.Enters key outcome) (second : wide.Enters key wideOutcome)
    (inside : wide.visiting = walk.visiting) (balanced : wide.depth = walk.depth)
    (deeper : walk.limits.depth ≤ wide.limits.depth)
    (granted : outcome.1 = .entered ∨ outcome.1 = .cycle) :
    wideOutcome.1 = outcome.1 ∨ wideOutcome.1 = .tooMany := by
  cases first with
  | entered new shallow room =>
      cases second with
      | entered => exact Or.inl rfl
      | cycle known =>
          rw [inside, new] at known
          cases known
      | tooDeep deep =>
          rcases deep with deep | ⟨_, full⟩
          · omega
          · rw [inside] at full
            omega
      | tooMany => exact Or.inr rfl
  | cycle known shallow =>
      cases second with
      | entered new =>
          rw [inside, known] at new
          cases new
      | cycle => exact Or.inl rfl
      | tooDeep deep =>
          rcases deep with deep | ⟨new, _⟩
          · omega
          · rw [inside, known] at new
            cases new
      | tooMany => exact Or.inr rfl
  | tooDeep => simp at granted
  | tooMany => simp at granted

/-- With as many requests made, it is granted in the same way. -/
theorem enter_withDepth [BEq Key] {walk after : Walk Key} {key : Key} {entry : Entry} {depth : Nat}
    (deeper : walk.limits.depth ≤ depth) (request : walk.enter key = (entry, after))
    (granted : entry = .entered ∨ entry = .cycle) :
    (walk.withDepth depth).enter key = (entry, after.withDepth depth) := by
  have first := walk.enter_enters key
  have second := (walk.withDepth depth).enter_enters key
  rw [request] at first
  have alike := first.wider second rfl rfl deeper granted
  generalize (walk.withDepth depth).enter key = outcome at second alike
  cases first with
  | entered new shallow room allowed =>
      cases second with
      | entered => rfl
      | tooMany many => exact absurd many (Nat.not_lt_of_le allowed)
      | _ => simp at alike
  | cycle known shallow allowed =>
      cases second with
      | cycle => rfl
      | tooMany many => exact absurd many (Nat.not_lt_of_le allowed)
      | _ => simp at alike
  | tooDeep => simp at granted
  | tooMany => simp at granted

theorem Follows.withDepth {before after : Walk Key} (later : before.Follows after) (depth : Nat) :
    (before.withDepth depth).Follows (after.withDepth depth) where
  limits := congrArg (fun limits => { limits with depth := depth }) later.limits
  visiting := later.visiting
  depth := later.depth
  exceeded := later.exceeded

/-- A walk on which no limit was hit has not hit one before. -/
theorem Follows.unexceeded {before after : Walk Key} (later : before.Follows after)
    (finished : after.exceeded = false) : before.exceeded = false := by
  rw [Bool.eq_false_iff]
  intro exceeded
  rw [later.exceeded exceeded] at finished
  cases finished

/-- More requests were made than a comparison is allowed. -/
def Overrun (walk : Walk Key) : Prop := Limits.maxEntries < walk.entries

theorem overrun_counted {walk : Walk Key} (overrun : walk.Overrun) : walk.counted.Overrun := by
  have capped : Limits.maxEntries < Limits.countCap := by decide
  unfold Overrun at overrun ⊢
  change Limits.maxEntries < min (walk.entries + 1) Limits.countCap
  omega

end Walk

namespace Rule

variable {answer other : Answer} {depth : Nat} {walk : Walk Query}

/-- From a walk on, the other answers are the same ones under another depth limit as long as no limit
is hit. -/
def SameUnder (answer other : Answer) (depth : Nat) (walk : Walk Query) : Prop :=
  ∀ q inner, walk.Follows inner → (answer q inner).2.exceeded = false →
    other q (inner.withDepth depth) = ((answer q inner).1, (answer q inner).2.withDepth depth)

theorem SameUnder.later {after : Walk Query} (agree : SameUnder answer other depth walk)
    (follows : walk.Follows after) : SameUnder answer other depth after :=
  fun q inner later => agree q inner (follows.trans later)

theorem runAll_withDepth (steady : Steady answer) (demands : List Demand)
    (agree : SameUnder answer other depth walk)
    (finished : (runAll answer demands walk).2.exceeded = false) :
    runAll other demands (walk.withDepth depth) =
      ((runAll answer demands walk).1, (runAll answer demands walk).2.withDepth depth) := by
  induction demands generalizing walk with
  | nil => rfl
  | cons demand demands ih =>
      cases demand with
      | refuse => rfl
      | query q =>
          have first := steady q walk
          have same := agree q walk (.refl walk)
          cases answered : answer q walk with
          | mk yes after =>
              rw [answered] at first same
              cases yes with
              | true =>
                  have step : runAll answer (.query q :: demands) walk = runAll answer demands after := by
                    rw [runAll, answered]
                  rw [step] at finished ⊢
                  have rest : after.Follows (runAll answer demands after).2 :=
                    run_follows steady (.allOf demands) after
                  rw [runAll, same (rest.unexceeded finished)]
                  exact ih (agree.later first) finished
              | false =>
                  have step : runAll answer (.query q :: demands) walk = (false, after) := by
                    rw [runAll, answered]
                  rw [step] at finished ⊢
                  rw [runAll, same finished]

theorem runAny_withDepth (steady : Steady answer) (queries : List Query)
    (agree : SameUnder answer other depth walk)
    (finished : (runAny answer queries walk).2.exceeded = false) :
    runAny other queries (walk.withDepth depth) =
      ((runAny answer queries walk).1, (runAny answer queries walk).2.withDepth depth) := by
  induction queries generalizing walk with
  | nil => rfl
  | cons q queries ih =>
      have first := steady q walk
      have same := agree q walk (.refl walk)
      cases answered : answer q walk with
      | mk yes after =>
          rw [answered] at first same
          cases yes with
          | true =>
              have step : runAny answer (q :: queries) walk = (true, after) := by rw [runAny, answered]
              rw [step] at finished ⊢
              rw [runAny, same finished]
          | false =>
              have step : runAny answer (q :: queries) walk = runAny answer queries after := by
                rw [runAny, answered]
              rw [step] at finished ⊢
              have rest : after.Follows (runAny answer queries after).2 :=
                run_follows steady (.anyOf queries) after
              rw [runAny, same (rest.unexceeded finished)]
              exact ih (agree.later first) finished

/-- A rule that hits no limit gives the same answer under another depth limit, if every query does. -/
theorem run_withDepth (steady : Steady answer) (rule : Rule)
    (agree : SameUnder answer other depth walk) (finished : (rule.run answer walk).2.exceeded = false) :
    rule.run other (walk.withDepth depth) =
      ((rule.run answer walk).1, (rule.run answer walk).2.withDepth depth) := by
  cases rule with
  | allOf demands => exact runAll_withDepth steady demands agree finished
  | anyOf queries => exact runAny_withDepth steady queries agree finished

end Rule

namespace Context

variable (ctx : Context)

/-- A run that hits no limit is the same run under a greater depth limit. -/
theorem check_withDepth {levels more depth : Nat} {q : Query} {walk : Walk Query}
    (room : walk.Room levels) (space : (walk.withDepth depth).Room more)
    (deeper : walk.limits.depth ≤ depth)
    (finished : (ctx.check levels q walk).2.exceeded = false) :
    ctx.check more q (walk.withDepth depth) =
      ((ctx.check levels q walk).1, (ctx.check levels q walk).2.withDepth depth) := by
  induction levels generalizing more q walk with
  | zero => exact absurd room.positive (Nat.lt_irrefl 0)
  | succ levels ih =>
      obtain ⟨more, rfl⟩ := Nat.exists_eq_add_one.mpr space.positive
      rw [check] at finished ⊢
      rw [check]
      dsimp only at finished ⊢
      cases settled : (q.concrete ctx.aliases).settled? with
      | some answer => rfl
      | none =>
          rw [settled] at finished
          cases request : walk.enter (q.concrete ctx.aliases) with
          | mk entry after =>
              have outcome := walk.enter_enters (q.concrete ctx.aliases)
              rw [request] at outcome finished
              cases outcome with
              | entered new shallow vacant =>
                  rw [Walk.enter_withDepth deeper request (Or.inl rfl)]
                  have inner := room.inside (q.concrete ctx.aliases) shallow vacant
                  have wide : ((walk.inside (q.concrete ctx.aliases)).withDepth depth).Room more :=
                    space.inside (q.concrete ctx.aliases) (Nat.lt_of_lt_of_le shallow deeper) vacant
                  have same := Rule.run_withDepth (ctx.check_steady levels)
                    (Rule.of ctx.aliases (q.concrete ctx.aliases))
                    (fun p later follows quiet => ih (inner.follows follows)
                      (wide.follows (follows.withDepth depth)) (follows.limits ▸ deeper) quiet) finished
                  simp only [same]
                  rfl
              | cycle known =>
                  rw [Walk.enter_withDepth deeper request (Or.inr rfl)]
              | tooDeep => cases finished
              | tooMany => cases finished

/-- Requests that were made are not forgotten. -/
theorem check_overrun (levels : Nat) (q : Query) (walk : Walk Query) (overrun : walk.Overrun) :
    (ctx.check levels q walk).2.Overrun := by
  induction levels generalizing q walk with
  | zero => exact overrun
  | succ levels ih =>
      unfold check
      dsimp only
      split
      · exact overrun
      · have request := walk.enter_enters (q.concrete ctx.aliases)
        generalize walk.enter (q.concrete ctx.aliases) = outcome at request
        cases request with
        | entered =>
            exact Rule.run_keeps (fun before after => before.Overrun → after.Overrun) (fun _ => id)
              (fun _ _ _ one two => two ∘ one) ih _ _ (Walk.overrun_counted overrun)
        | cycle => exact Walk.overrun_counted overrun
        | tooDeep => exact Walk.overrun_counted overrun
        | tooMany => exact Walk.overrun_counted overrun

/-- A positive answer stays positive on a walk that is inside of the same queries and may go deeper,
unless that walk runs out of requests. -/
theorem check_yes_deeper {levels more : Nat} {q : Query} {walk wide : Walk Query}
    (room : walk.Room levels) (space : wide.Room more) (inside : wide.visiting = walk.visiting)
    (deeper : walk.limits.depth ≤ wide.limits.depth) (limit : wide.limits.entries = Limits.maxEntries)
    (accepted : (ctx.check levels q walk).1 = true) :
    (ctx.check more q wide).1 = true ∨ (ctx.check more q wide).2.Overrun := by
  -- The two runs are inside of the same queries, so they find the same cycles. What is below a query
  -- may have been refused here and accepted there, but never the other way round.
  induction levels generalizing more q walk wide with
  | zero => exact absurd room.positive (Nat.lt_irrefl 0)
  | succ levels ih =>
      obtain ⟨more, rfl⟩ := Nat.exists_eq_add_one.mpr space.positive
      have balanced : wide.depth = walk.depth := by rw [space.balanced, room.balanced, inside]
      rw [check] at accepted ⊢
      dsimp only at accepted ⊢
      cases settled : (q.concrete ctx.aliases).settled? with
      | some answer =>
          rw [settled] at accepted
          exact Or.inl accepted
      | none =>
          rw [settled] at accepted
          have first := walk.enter_enters (q.concrete ctx.aliases)
          have second := wide.enter_enters (q.concrete ctx.aliases)
          have alike := first.wider second inside balanced deeper
          generalize walk.enter (q.concrete ctx.aliases) = outcome at first accepted alike
          generalize wide.enter (q.concrete ctx.aliases) = wideOutcome at second alike
          cases first with
          | entered new shallow vacant =>
              cases second with
              | entered _ wideShallow wideVacant =>
                  have inner := room.inside (q.concrete ctx.aliases) shallow vacant
                  have wideInner := space.inside (q.concrete ctx.aliases) wideShallow wideVacant
                  have told := Rule.run_true (ctx.check_steady levels) _ _ accepted
                  have answered := Rule.run_yes_or (ctx.check_steady more) Walk.Overrun
                    (ctx.check_overrun more) _ (wide.inside (q.concrete ctx.aliases)) _ ?_ told
                  · exact answered
                  · rintro p ⟨before, later, yes⟩ after follows
                    refine ih (inner.follows later) (wideInner.follows follows) ?_ ?_ ?_ yes
                    · rw [follows.visiting, later.visiting]
                      exact congrArg (q.concrete ctx.aliases :: ·) inside
                    · rw [follows.limits, later.limits]
                      exact deeper
                    · rw [follows.limits]
                      exact limit
              | tooMany many =>
                  rw [limit] at many
                  exact Or.inr many
              | _ => simp at alike
          | cycle =>
              cases second with
              | cycle => exact Or.inl rfl
              | tooMany many =>
                  rw [limit] at many
                  exact Or.inr many
              | _ => simp at alike
          | tooDeep => cases accepted
          | tooMany => cases accepted

/-- The settings with another depth limit. -/
def withDepth (depth : Nat) : Context :=
  { ctx with options := { ctx.options with maxDepth := depth } }

/-- A depth limit is looked at by the walk only. -/
theorem check_withDepth_eq (depth levels : Nat) :
    (ctx.withDepth depth).check levels = ctx.check levels := by
  induction levels with
  | zero => rfl
  | succ levels ih =>
      funext q walk
      rw [check, check, ih]
      rfl

/-- The number of requests to enter a query that a comparison makes. -/
def requests (value target : Ty) : Nat :=
  (ctx.check ctx.levels ⟨value, target⟩ ctx.walk).2.entries

/-- A greater depth limit only helps: it changes nothing about a comparison that hits no limit, and a
positive answer stays positive if the comparison gets by with the requests that it is allowed. -/
theorem compatible_deeper (value target : Ty) {depth more : Nat} (deeper : depth ≤ more) :
    (((ctx.withDepth depth).compatible value target).cut = false →
      ((ctx.withDepth more).compatible value target).value =
          ((ctx.withDepth depth).compatible value target).value ∧
        ((ctx.withDepth more).compatible value target).cut = false) ∧
    ((ctx.withDepth more).requests value target ≤ 100000 →
      ((ctx.withDepth depth).compatible value target).value = true →
        ((ctx.withDepth more).compatible value target).value = true) := by
  have room : (ctx.withDepth depth).walk.Room (ctx.withDepth depth).levels := room_walk _
  have space : (ctx.withDepth more).walk.Room (ctx.withDepth more).levels := room_walk _
  simp only [compatible_value, compatible_cut, requests, check_withDepth_eq]
  constructor
  · intro finished
    have same : ctx.check (ctx.withDepth more).levels ⟨value, target⟩ (ctx.withDepth more).walk = _ :=
      ctx.check_withDepth room space deeper finished
    rw [same]
    exact ⟨rfl, finished⟩
  · intro few accepted
    rcases ctx.check_yes_deeper room space rfl deeper rfl accepted with yes | overrun
    · exact yes
    · exact absurd overrun (Nat.not_lt_of_le few)

/-- A customer whose address is known in parts. -/
def customer (address : Ty) : Ty :=
  .object { properties := [⟨"address", address, false⟩] }

/-- A street, given by name or by number. -/
def street (ty : Ty) : Ty := .object { properties := [⟨"street", ty, false⟩] }

/-- With two levels, the first member of the target is refused because the addresses cannot be
compared any more, and the second one accepts what it does not look into. With four levels nothing
is cut short. -/
theorem customer_deeper :
    ((({} : Context).withDepth 2).compatible (customer (street .string))
        (.union [customer (street .number), customer .any])).cut = true ∧
      ((({} : Context).withDepth 100).compatible (customer (street .string))
        (.union [customer (street .number), customer .any])).value = true ∧
      ((({} : Context).withDepth 100).compatible (customer (street .string))
        (.union [customer (street .number), customer .void])).value = false := by
  have accepted := (compatible_deeper {} (customer (street .string))
    (.union [customer (street .number), customer .any]) (show 2 ≤ 100 by decide)).2
      (by decide +kernel) (by decide +kernel)
  have refused := ((compatible_deeper {} (customer (street .string))
    (.union [customer (street .number), customer .void]) (show 4 ≤ 100 by decide)).1
      (by decide +kernel)).1
  refine ⟨by decide +kernel, accepted, refused.trans ?_⟩
  decide +kernel

end Context

end StructuralTypes
