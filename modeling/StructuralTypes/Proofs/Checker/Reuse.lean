import StructuralTypes.Checker.Explain
import StructuralTypes.Proofs.Compatibility.Run

/-!
What a walk keeps between two questions is how often it was asked to enter a key and whether a limit
refused it. Every question begins with a comparison on a new walk or does not use the walk at all,
so none of this is ever looked at.
-/

set_option autoImplicit false

namespace StructuralTypes

/-- A walk of a checker between two questions. -/
structure Idle (ctx : Context) (walk : Walk Query) : Prop where
  limits : walk.limits = ctx.walk.limits
  visiting : walk.visiting = []
  depth : walk.depth = 0

namespace Idle

variable {ctx : Context} {walk after : Walk Query}

theorem new (ctx : Context) : Idle ctx ctx.walk := ⟨rfl, rfl, rfl⟩

theorem follows (idle : Idle ctx walk) (later : walk.Follows after) : Idle ctx after where
  limits := later.limits.trans idle.limits
  visiting := later.visiting.trans idle.visiting
  depth := later.depth.trans idle.depth

/-- Only the limits survive a reset. -/
theorem reset_eq (idle : Idle ctx walk) : walk.reset = ctx.walk := by
  unfold Walk.reset
  rw [idle.limits]
  rfl

end Idle

namespace CheckM

variable {ctx : Context} {α β : Type}

/-- The computation leaves a checker between two questions there. -/
def Returns (ctx : Context) (x : CheckM α) : Prop :=
  ∀ walk, Idle ctx walk → Idle ctx (x.run walk).value.2

namespace Returns

theorem pure (a : α) : Returns ctx (Pure.pure a : CheckM α) := fun _ idle => idle

theorem bind {x : CheckM α} {f : α → CheckM β} (first : Returns ctx x)
    (rest : ∀ a, Returns ctx (f a)) : Returns ctx (x >>= f) := by
  intro walk idle
  exact rest _ _ (first walk idle)

theorem ite {condition : Prop} [Decidable condition] {x y : CheckM α} (yes : Returns ctx x)
    (no : Returns ctx y) : Returns ctx (if condition then x else y) := by
  split
  · exact yes
  · exact no

theorem option {x : CheckM (Option α)} {f : Option α → CheckM β} (first : Returns ctx x)
    (none : Returns ctx (f none)) (some : ∀ a, Returns ctx (f (some a))) :
    Returns ctx (x >>= f) := by
  refine bind first fun found? => ?_
  cases found? with
  | none => exact none
  | some a => exact some a

/-- What does not use the walk leaves it as it is. -/
theorem lift (x : Limited α) : Returns ctx (liftM x : CheckM α) := fun _ idle => idle

theorem limitExceeded : Returns ctx limitExceeded := fun _ idle => idle

theorem step (value target : Ty) : Returns ctx (step ctx value target) := by
  intro walk idle
  exact idle.follows (ctx.check_steady ctx.levels ⟨value, target⟩ walk)

end Returns

/-- A comparison between two questions is made on a new walk. -/
theorem isCompatible_run {walk : Walk Query} (idle : Idle ctx walk) (value target : Ty) :
    (isCompatible ctx value target).run walk = (isCompatible ctx value target).run ctx.walk := by
  have renewed (start : Walk Query) (between : Idle ctx start) :
      (isCompatible ctx value target).run start = (step ctx value target).run ctx.walk := by
    unfold isCompatible
    change (if start.depth = 0 then (modify Walk.reset >>= fun _ => step ctx value target)
      else step ctx value target : CheckM Bool).run start = _
    rw [if_pos between.depth]
    change (step ctx value target).run start.reset = _
    rw [between.reset_eq]
  rw [renewed walk idle, renewed ctx.walk (.new ctx)]

theorem Returns.isCompatible (value target : Ty) : Returns ctx (isCompatible ctx value target) := by
  intro walk idle
  rw [isCompatible_run idle]
  exact Returns.step value target ctx.walk (.new ctx)

theorem Returns.isIdentical (a b : Ty) : Returns ctx (isIdentical ctx a b) := by
  unfold CheckM.isIdentical
  refine .ite (.pure _) (.bind (.step a b) fun forth => ?_)
  exact .ite (.step b a) (.pure _)

section Explanation

theorem Returns.firstRefused {accepts : α → CheckM Bool} (each : ∀ a, Returns ctx (accepts a))
    (as : List α) : Returns ctx (firstRefused accepts as) := by
  induction as with
  | nil => exact .pure _
  | cons a as ih => exact .bind (each a) fun accepted => .ite ih (.pure _)

theorem Returns.firstRefusedPair {accepts : Ty → Ty → CheckM Bool}
    (each : ∀ s t, Returns ctx (accepts s t)) (sources targets : List Ty) :
    Returns ctx (firstRefusedPair accepts sources targets) := by
  apply Returns.firstRefused
  rintro ⟨⟨s, t⟩, i⟩
  exact each s t

variable {explain : Ty → Ty → CheckM Verdict}

theorem Returns.explainIndex (source : Shape Ty) (index : IndexSignature Ty) :
    Returns ctx (explainIndex ctx source index) := by
  unfold CheckM.explainIndex
  apply Returns.option
  · apply Returns.firstRefused
    intro p
    exact .isCompatible p.ty index.value
  · exact .pure _
  · intro refused
    exact .pure _

theorem Returns.explainSignatures (source target : Signature Ty) :
    Returns ctx (explainSignatures ctx source target) := by
  unfold CheckM.explainSignatures
  refine .ite (.pure _) (.option (.firstRefusedPair .isIdentical _ _) (.pure _) ?_)
  rintro ⟨⟨s, t⟩, i⟩
  exact .pure _

variable (inner : ∀ value target, Returns ctx (explain value target))

include inner

theorem Returns.explainProperty (source : Shape Ty) (slot : Property Ty) :
    Returns ctx (explainProperty ctx explain source slot) := by
  unfold CheckM.explainProperty
  split
  · refine .ite (.pure _) (.bind (inner _ _) fun verdict => ?_)
    cases verdict with
    | accepted => exact .pure _
    | refused reason? => exact .pure _
  · refine .ite (.pure _) ?_
    split
    · exact .pure _
    · exact .bind (.isCompatible _ _) fun accepted => .ite (.pure _) (.pure _)

theorem Returns.explainProperties (source : Shape Ty) (slots : List (Property Ty)) :
    Returns ctx (explainProperties ctx explain source slots) := by
  induction slots with
  | nil => exact .pure _
  | cons slot slots ih =>
      exact .option (.explainProperty inner source slot) ih fun reason => .pure _

theorem Returns.explainShapes (source target : Shape Ty) :
    Returns ctx (explainShapes ctx explain source target) := by
  refine .option (.explainProperties inner source target.properties) ?_ fun reason => .pure _
  dsimp only
  split
  · exact .explainIndex source _
  · exact .pure _

theorem Returns.explainConcrete (value target : Ty) :
    Returns ctx (explainConcrete ctx explain value target) := by
  have fromMembers (members : List Ty) :
      Returns ctx (CheckM.firstRefused (fun m => CheckM.isCompatible ctx m target) members) :=
    .firstRefused (fun m => .isCompatible m target) members
  have toMembers (members : List Ty) :
      Returns ctx (CheckM.firstRefused (CheckM.isCompatible ctx value) members) :=
    .firstRefused (Returns.isCompatible value) members
  have elements (sources targets : List Ty) :
      Returns ctx (CheckM.firstRefusedPair (CheckM.isCompatible ctx) sources targets) :=
    .firstRefusedPair .isCompatible sources targets
  unfold CheckM.explainConcrete
  dsimp only
  split
  case h_1 sources members => exact .option (fromMembers sources) (.pure _) fun m => .pure _
  case h_3 sources _ => exact .option (fromMembers sources) (.pure _) fun m => .pure _
  case h_4 members _ => exact .option (toMembers members) (.pure _) fun m => .pure _
  case h_10 ss ts => exact .ite (.pure _) (.option (elements ss ts) (.pure _) fun pair => .pure _)
  case h_11 ss t => exact .option (elements ss _) (.pure _) fun pair => .pure _
  case h_12 s t => exact .explainSignatures s t
  case h_13 =>
    split
    · exact .bind (.explainShapes inner _ _) fun reason? => .pure _
    · exact .pure _
  all_goals exact .pure _

theorem Returns.explainPair (value target : Ty) :
    Returns ctx (explainPair ctx explain value target) := by
  refine .bind (.isCompatible value target) fun accepted => .ite (.pure _) ?_
  refine .bind .limitExceeded fun limited => .ite (.pure _) ?_
  exact .bind (.explainConcrete inner _ _) fun reason => .pure _

omit inner in
theorem Returns.explainWithin (steps : Nat) (value target : Ty) :
    Returns ctx (explainWithin ctx steps value target) := by
  induction steps generalizing value target with
  | zero => exact .bind (.isCompatible value target) fun accepted => .ite (.pure _) (.pure _)
  | succ steps ih =>
      exact .option (.explainPair ih value target) (.pure _) fun reason => .pure _

end Explanation

theorem Returns.checkAssignment (value target : Ty) :
    Returns ctx (checkAssignment ctx value target) := by
  unfold CheckM.checkAssignment
  refine .ite (.lift _) (.bind (.isCompatible value target) fun accepted => ?_)
  exact .ite (.pure _) (.pure _)

end CheckM

/-- A question to a checker. -/
inductive Question where
  | compatible (value target : Ty)
  | explanation (value target : Ty)
  | assignment (value target : Ty)

inductive Reply where
  /-- The answer, and whether the comparison gave up at a limit. -/
  | compatible (answer limited : Bool)
  | explanation (reason? : Option Mismatch)
  | findings (findings : List Finding)

namespace CheckM

variable {ctx : Context}

def reply (ctx : Context) : Question → CheckM Reply
  | .compatible value target => do
    let answer ← isCompatible ctx value target
    return .compatible answer (← limitExceeded)
  | .explanation value target => return .explanation (← explain ctx value target)
  | .assignment value target => return .findings (← checkAssignment ctx value target)

/-- Asks one question after another. Each reply comes with the walk after it. -/
def replies (ctx : Context) : List Question → CheckM (List (Reply × Walk Query))
  | [] => return []
  | question :: questions => do
    let first ← reply ctx question
    let walk ← get
    return (first, walk) :: (← replies ctx questions)

theorem Returns.reply (question : Question) : Returns ctx (reply ctx question) := by
  cases question with
  | compatible value target =>
      refine .bind (.isCompatible value target) fun answer => ?_
      exact .bind .limitExceeded fun limited => .pure _
  | explanation value target =>
      exact .bind (.explainPair (.explainWithin _) value target) fun reason? => .pure _
  | assignment value target => exact .bind (.checkAssignment value target) fun findings => .pure _

/-- A computation that begins with a comparison does not depend on what was asked before. -/
theorem bind_run {α β : Type} {walk : Walk Query} {x : CheckM α}
    (first : x.run walk = x.run ctx.walk) (f : α → CheckM β) :
    (x >>= f).run walk = (x >>= f).run ctx.walk := by
  rw [StateT.run_bind, StateT.run_bind, first]

theorem explainPair_run {walk : Walk Query} (idle : Idle ctx walk) (value target : Ty)
    {explain : Ty → Ty → CheckM Verdict} :
    (explainPair ctx explain value target).run walk =
      (explainPair ctx explain value target).run ctx.walk :=
  bind_run (isCompatible_run idle value target) _

theorem checkAssignment_run {walk : Walk Query} (idle : Idle ctx walk) (value target : Ty) :
    ((checkAssignment ctx value target).run walk).value.1 =
      ((checkAssignment ctx value target).run ctx.walk).value.1 := by
  unfold checkAssignment
  by_cases fresh : value.isFreshLiteral = true
  · rw [if_pos fresh]
    rfl
  · rw [if_neg fresh, bind_run (isCompatible_run idle value target)]

/-- Whatever was asked before, the reply is that of a new checker. -/
theorem reply_run {walk : Walk Query} (idle : Idle ctx walk) (question : Question) :
    ((reply ctx question).run walk).value.1 = (ask ctx (reply ctx question)).value := by
  cases question with
  | compatible value target =>
      exact congrArg (·.value.1) (bind_run (isCompatible_run idle value target) _)
  | explanation value target =>
      exact congrArg (·.value.1) (bind_run (explainPair_run idle value target) _)
  | assignment value target =>
      exact congrArg Reply.findings (checkAssignment_run idle value target)

/-- A checker that is asked one question after another is outside of all keys after each of them,
and gives the replies of new checkers. -/
theorem replies_forget (ctx : Context) (questions : List Question) :
    List.Forall₂
      (fun question (answered : Reply × Walk Query) =>
        answered.1 = (ask ctx (reply ctx question)).value ∧
          answered.2.visiting = [] ∧ answered.2.depth = 0)
      questions (ask ctx (replies ctx questions)).value := by
  suffices general : ∀ walk, Idle ctx walk → List.Forall₂
      (fun question (answered : Reply × Walk Query) =>
        answered.1 = (ask ctx (reply ctx question)).value ∧
          answered.2.visiting = [] ∧ answered.2.depth = 0)
      questions ((replies ctx questions).run walk).value.1 from general ctx.walk (.new ctx)
  induction questions with
  | nil =>
      intro walk idle
      exact .nil
  | cons question questions ih =>
      intro walk idle
      have after : Idle ctx ((reply ctx question).run walk).value.2 :=
        Returns.reply question walk idle
      exact .cons ⟨reply_run idle question, after.visiting, after.depth⟩ (ih _ after)

end CheckM

end StructuralTypes
