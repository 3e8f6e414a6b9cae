import StructuralTypes.Proofs.Compatibility.Immediate
import StructuralTypes.Proofs.Inference.Observations

set_option autoImplicit false

namespace StructuralTypes

namespace Ty

/-- A literal, or a keyword type other than `any` and `never`. -/
def isScalar : Ty → Bool
  | literal _ | string | number | boolean | null | undefined | void => true
  | _ => false

/-- The order of scalars. -/
def isBelow : Ty → Ty → Bool
  | literal a, literal b => a.same b
  | literal a, primitive kind => a.base == kind
  | primitive a, primitive b => a == b
  | _, _ => false

variable {a b c : Ty}

theorem scalar_cases (scalar : a.isScalar = true) :
    (∃ l, a = literal l) ∨ ∃ kind, a = primitive kind := by
  cases a with
  | literal l => exact .inl ⟨l, rfl⟩
  | primitive kind => exact .inr ⟨kind, rfl⟩
  | _ => cases scalar

theorem isAny_scalar (scalar : a.isScalar = true) : a.isAny = false := by
  cases a with
  | primitive kind =>
      cases kind with
      | any => cases scalar
      | _ => rfl
  | _ => rfl

theorem isNever_scalar (scalar : a.isScalar = true) : a.isNever = false := by
  cases a with
  | primitive kind =>
      cases kind with
      | never => cases scalar
      | _ => rfl
  | _ => rfl

theorem isBelow_self (scalar : a.isScalar = true) : a.isBelow a = true := by
  rcases scalar_cases scalar with ⟨l, rfl⟩ | ⟨kind, rfl⟩
  · exact Literal.same_self l
  · exact beq_self_eq_true kind

theorem isBelow_trans (first : a.isBelow b = true) (second : b.isBelow c = true) :
    a.isBelow c = true := by
  cases a with
  | literal l =>
      cases b with
      | literal m =>
          cases c with
          | literal n => exact Literal.same_trans first second
          | primitive kind =>
              rw [isBelow, Literal.base_same first]
              exact second
          | _ => cases second
      | primitive kind =>
          cases c with
          | primitive other =>
              rw [isBelow, eq_of_beq first]
              exact second
          | _ => cases second
      | _ => cases first
  | primitive kind =>
      cases b with
      | primitive other =>
          rw [eq_of_beq first]
          exact second
      | _ => cases first
  | _ => cases first

theorem same_of_isBelow (first : a.isBelow b = true) (second : b.isBelow a = true) : a.Same b := by
  cases a with
  | literal l =>
      cases b with
      | literal m => exact first
      | primitive kind => cases second
      | _ => cases first
  | primitive kind =>
      cases b with
      | primitive other => exact first
      | _ => cases first
  | _ => cases first

theorem isBelow_of_same (scalar : a.isScalar = true) (equal : a.Same b) :
    a.isBelow b = true ∧ b.isBelow a = true := by
  rcases scalar_cases scalar with ⟨l, rfl⟩ | ⟨kind, rfl⟩
  · obtain ⟨m, rfl, same⟩ := exists_literal_of_same equal
    exact ⟨same, Literal.same_symm same⟩
  · rw [eq_of_same_primitive equal]
    exact ⟨beq_self_eq_true kind, beq_self_eq_true kind⟩

/-- Nothing else is above a keyword type. -/
theorem eq_of_primitive_isBelow {kind : Primitive} (above : (primitive kind).isBelow a = true) :
    a = primitive kind := by
  cases a with
  | primitive other => rw [eq_of_beq above]
  | _ => cases above

end Ty

namespace Context

variable {ctx : Context} {a b : Ty}

/-- Scalars are compatible exactly in their order, and no limit plays a role if any depth at all is
allowed. -/
theorem compatible_scalars (deep : 0 < ctx.options.maxDepth) (scalarA : a.isScalar = true)
    (scalarB : b.isScalar = true) : ctx.compatible a b = ⟨a.isBelow b, false⟩ := by
  have own {ty : Ty} (scalar : ty.isScalar = true) : ctx.aliases.concrete ty = ty := by
    rcases Ty.scalar_cases scalar with ⟨l, rfl⟩ | ⟨kind, rfl⟩
    · exact concrete_literal l
    · exact concrete_primitive kind
  have query : Query.concrete ⟨a, b⟩ ctx.aliases = ⟨a, b⟩ := by
    rw [Query.concrete, own scalarA, own scalarB]
  by_cases equal : a.same b = true
  · have settled : (Query.concrete ⟨a, b⟩ ctx.aliases).settled? = some true := by
      rw [query]
      exact Query.settled?_of_same equal
    rw [ctx.compatible_of_settled settled, (Ty.isBelow_of_same scalarA equal).1]
  · have unsettled : (Query.concrete ⟨a, b⟩ ctx.aliases).settled? = none := by
      rw [query, Query.settled?]
      simp [Ty.isAny_scalar scalarA, Ty.isAny_scalar scalarB, Ty.isNever_scalar scalarA,
        Ty.isNever_scalar scalarB, equal]
    have rule : Rule.of ctx.aliases (Query.concrete ⟨a, b⟩ ctx.aliases) = .verdict (a.isBelow b) := by
      rw [query]
      rcases Ty.scalar_cases scalarA with ⟨l, rfl⟩ | ⟨kind, rfl⟩ <;>
        rcases Ty.scalar_cases scalarB with ⟨m, rfl⟩ | ⟨other, rfl⟩ <;> rfl
    exact ctx.compatible_of_verdict deep unsettled rule

end Context

namespace Inference

variable {ctx : Context} {s : Inference} {param : Nat} {name : String} {seen : List Ty}

section Joins

/-- The scalar is the least one above those that were seen. -/
structure Joins (seen : List Ty) (bound : Ty) : Prop where
  scalar : bound.isScalar = true
  least : ∀ wide, bound.isBelow wide = true ↔ ∀ ty ∈ seen, ty.isBelow wide = true

theorem Joins.single {ty : Ty} (scalar : ty.isScalar = true) : Joins [ty] ty := by
  refine ⟨scalar, fun wide => ?_⟩
  rw [List.forall_mem_singleton]

theorem Joins.snoc {bound ty next : Ty} (joins : Joins seen bound) (pair : Joins [bound, ty] next) :
    Joins (seen ++ [ty]) next := by
  refine ⟨pair.scalar, fun wide => ?_⟩
  rw [pair.least wide, List.forall_mem_append, List.forall_mem_singleton, ← joins.least wide]
  simp

theorem Joins.ne_nil {bound : Ty} (joins : Joins seen bound) : seen ≠ [] := by
  rintro rfl
  have above : bound.isBelow .anyFunction = true := (joins.least .anyFunction).mpr nofun
  rcases Ty.scalar_cases joins.scalar with ⟨l, rfl⟩ | ⟨kind, rfl⟩ <;> cases above

/-- Only what was seen counts, and not in which order. -/
theorem Joins.same {other : List Ty} {bound final : Ty} (joins : Joins seen bound)
    (same : ∀ ty, ty ∈ seen ↔ ty ∈ other) (others : Joins other final) : bound.Same final := by
  have both (wide : Ty) : bound.isBelow wide = true ↔ final.isBelow wide = true := by
    rw [joins.least wide, others.least wide]
    simp only [same]
  exact Ty.same_of_isBelow ((both final).mpr (Ty.isBelow_self others.scalar))
    ((both bound).mp (Ty.isBelow_self joins.scalar))

theorem forall_mem_pair {a b wide : Ty} :
    (∀ ty ∈ [a, b], ty.isBelow wide = true) ↔ a.isBelow wide = true ∧ b.isBelow wide = true := by
  simp

/-- What accepts an observation already is the least scalar above both. -/
theorem joins_of_isBelow {a b : Ty} (scalar : b.isScalar = true) (accepts : a.isBelow b = true) :
    Joins [a, b] b := by
  refine ⟨scalar, fun wide => ?_⟩
  rw [forall_mem_pair]
  exact ⟨fun above => ⟨Ty.isBelow_trans accepts above, above⟩, And.right⟩

theorem Joins.swap {a b next : Ty} (joins : Joins [a, b] next) : Joins [b, a] next := by
  refine ⟨joins.scalar, fun wide => ?_⟩
  rw [joins.least wide, forall_mem_pair, forall_mem_pair, and_comm]

/-- Nothing is above all that was seen. -/
def Apart (seen : List Ty) : Prop := ∀ wide, ¬∀ ty ∈ seen, ty.isBelow wide = true

theorem Joins.not_apart {bound : Ty} (joins : Joins seen bound) : ¬Apart seen :=
  fun apart => apart bound ((joins.least bound).mp (Ty.isBelow_self joins.scalar))

theorem Joins.apart_snoc {bound ty : Ty} (joins : Joins seen bound) (apart : Apart [bound, ty]) :
    Apart (seen ++ [ty]) := by
  intro wide above
  obtain ⟨earlier, last⟩ := List.forall_mem_append.mp above
  exact apart wide (List.forall_mem_cons.mpr ⟨(joins.least wide).mpr earlier, last⟩)

theorem Apart.snoc (apart : Apart seen) (ty : Ty) : Apart (seen ++ [ty]) :=
  fun wide above => apart wide (List.forall_mem_append.mp above).1

theorem apart_congr {other : List Ty} (same : ∀ ty, ty ∈ seen ↔ ty ∈ other) :
    Apart seen ↔ Apart other := by
  simp only [Apart, same]

/-- Two literals that differ have nothing above both but their keyword type, if they share it. -/
theorem joins_literals {a b : Literal} (different : ¬a.same b = true) (base : a.base = b.base) :
    Joins [.literal a, .literal b] (.primitive a.base) := by
  refine ⟨by cases a <;> rfl, fun wide => ?_⟩
  rw [forall_mem_pair]
  cases wide with
  | literal c =>
      refine ⟨nofun, fun ⟨first, second⟩ => ?_⟩
      exact absurd (Literal.same_trans first (Literal.same_symm second)) different
  | primitive kind =>
      simp only [Ty.isBelow, ← base, and_self]
  | _ => simp [Ty.isBelow]

theorem apart_literals {a b : Literal} (base : a.base ≠ b.base) :
    Apart [.literal a, .literal b] := by
  intro wide above
  obtain ⟨first, second⟩ := forall_mem_pair.mp above
  cases wide with
  | literal c => exact base ((Literal.base_same first).trans (Literal.base_same second).symm)
  | primitive kind => exact base ((eq_of_beq first).trans (eq_of_beq second).symm)
  | _ => cases first

/-- A keyword type has nothing above it but itself. -/
theorem apart_primitive {kind : Primitive} {ty : Ty} (refused : ¬ty.isBelow (.primitive kind) = true) :
    Apart [.primitive kind, ty] := by
  intro wide above
  obtain ⟨first, second⟩ := forall_mem_pair.mp above
  cases Ty.eq_of_primitive_isBelow first
  exact refused second

theorem Apart.swap {a b : Ty} (apart : Apart [a, b]) : Apart [b, a] :=
  fun wide above => apart wide (forall_mem_pair.mpr (forall_mem_pair.mp above).symm)

end Joins

section Verdicts

variable (widens : ctx.options.widenLiterals = true) (deep : 0 < ctx.options.maxDepth)

include widens deep

/-- The verdict on a scalar: the least scalar above the binding and the observation, or a conflict if
there is none. -/
theorem judge_scalars {bound ty : Ty} (scalarBound : bound.isScalar = true)
    (scalar : ty.isScalar = true) :
    ((judge ctx (some bound) ty).value = .conflict ∧ Apart [bound, ty]) ∨
      ((judge ctx (some bound) ty).value = .keep ∧ Joins [bound, ty] bound) ∨
      ∃ next, (judge ctx (some bound) ty).value = .bind next ∧ Joins [bound, ty] next := by
  unfold judge
  dsimp only
  by_cases equal : bound.same ty = true
  · rw [if_pos equal]
    have below := (Ty.isBelow_of_same scalarBound equal).2
    exact .inr (.inl ⟨rfl, (joins_of_isBelow scalarBound below).swap⟩)
  · rw [if_neg equal]
    split
    case h_1 a b =>
      by_cases base : a.base = b.base
      · rw [if_pos (by rw [base, widens, beq_self_eq_true]; rfl)]
        exact .inr (.inr ⟨_, rfl, joins_literals equal base⟩)
      · rw [if_neg (by simp [base])]
        exact .inl ⟨rfl, apart_literals base⟩
    case h_2 notLiterals =>
      rw [Context.compatible_scalars deep scalar scalarBound, Limited.value_bind]
      by_cases accepts : ty.isBelow bound = true
      · rw [if_pos accepts]
        exact .inr (.inl ⟨rfl, (joins_of_isBelow scalarBound accepts).swap⟩)
      · rw [if_neg accepts]
        rcases Ty.scalar_cases scalarBound with ⟨l, rfl⟩ | ⟨kind, rfl⟩
        · have isLiteral : (Ty.literal l).isLiteral = true := rfl
          rw [if_pos isLiteral, Context.compatible_scalars deep scalarBound scalar,
            Limited.value_bind]
          by_cases wider : (Ty.literal l).isBelow ty = true
          · rw [if_pos wider]
            exact .inr (.inr ⟨ty, rfl, joins_of_isBelow scalar wider⟩)
          · rw [if_neg wider]
            -- two literals have had their own rule, so the observation is a keyword type
            rcases Ty.scalar_cases scalar with ⟨m, rfl⟩ | ⟨kind, rfl⟩
            · exact absurd rfl (notLiterals l m rfl)
            · exact .inl ⟨rfl, (apart_primitive wider).swap⟩
        · exact .inl ⟨rfl, apart_primitive accepts⟩

end Verdicts

section Runs

/-- The least scalar above those that were seen, if any were. -/
def Joined (seen : List Ty) : Option Ty → Prop
  | none => seen = []
  | some bound => Joins seen bound

theorem Joined.rel {other : List Ty} {a b : Option Ty} (joined : Joined seen a)
    (same : ∀ ty, ty ∈ seen ↔ ty ∈ other) (others : Joined other b) : Option.Rel Ty.Same a b := by
  have empty : seen = [] ↔ other = [] := by
    simp only [List.eq_nil_iff_forall_not_mem, same]
  cases a with
  | none =>
      cases b with
      | none => exact .none
      | some final => exact absurd (empty.mp joined) (Joins.ne_nil others)
  | some bound =>
      cases b with
      | none => exact absurd (empty.mpr others) (Joins.ne_nil joined)
      | some final => exact .some (Joins.same joined same others)

/-- A conflict over the parameter is among the errors. -/
def Conflicts (name : String) (errors : List InferenceError) : Prop :=
  ∃ first second, .conflict name first second ∈ errors

theorem not_conflicts_nil (name : String) : ¬Conflicts name [] :=
  fun ⟨_, _, member⟩ => List.not_mem_nil member

/-- Since the start, the parameter was bound to the least scalar above those that were seen. -/
structure Agreed (s : Inference) (param : Nat) (name : String) (seen : List Ty)
    (now : Inference) : Prop where
  errors : now.errors = s.errors
  slot : ∃ bound?, now.params[param]? = some ⟨name, bound?⟩ ∧ Joined seen bound?

/-- Since the start, a conflict was recorded, for nothing is above all that was seen. -/
structure Disagreed (s : Inference) (name : String) (seen : List Ty) (now : Inference) : Prop where
  apart : Apart seen
  recorded : ∃ added, now.errors = s.errors ++ added ∧ Conflicts name added

theorem Agreed.not_apart {now : Inference} (agreed : Agreed s param name seen now) :
    ¬Apart seen := by
  obtain ⟨bound?, _, joined⟩ := agreed.slot
  cases bound? with
  | none =>
      rw [show seen = [] from joined]
      exact fun apart => apart .any nofun
  | some bound => exact Joins.not_apart joined

theorem Disagreed.observe {now : Inference} (disagreed : Disagreed s name seen now) (ty : Ty) :
    Disagreed s name (seen ++ [ty]) (now.observe ctx ⟨param, ty⟩).value := by
  obtain ⟨added, grown, first, second, member⟩ := disagreed.recorded
  obtain ⟨more, further⟩ := errors_observe ctx now ⟨param, ty⟩
  refine ⟨disagreed.apart.snoc ty, added ++ more, ?_, first, second, List.mem_append_left _ member⟩
  rw [further, grown, List.append_assoc]

variable (widens : ctx.options.widenLiterals = true) (deep : 0 < ctx.options.maxDepth)

include widens deep

theorem Agreed.observe {now : Inference} (agreed : Agreed s param name seen now) {ty : Ty}
    (scalar : ty.isScalar = true) :
    Agreed s param name (seen ++ [ty]) (now.observe ctx ⟨param, ty⟩).value ∨
      Disagreed s name (seen ++ [ty]) (now.observe ctx ⟨param, ty⟩).value := by
  obtain ⟨bound?, found, joined⟩ := agreed.slot
  have binds {next : Ty} (joins : Joins (seen ++ [ty]) next) :
      Agreed s param name (seen ++ [ty])
        { now with params := now.params.set param ⟨name, some next⟩ } :=
    have inside : param < now.params.length := (List.getElem?_eq_some_iff.mp found).1
    ⟨agreed.errors, some next, List.getElem?_set_self inside, joins⟩
  rw [observe_eq ctx found ty]
  cases bound? with
  | none =>
      rw [show seen = [] from joined] at binds ⊢
      exact .inl (binds (.single scalar))
  | some bound =>
      have joins : Joins seen bound := joined
      rcases judge_scalars widens deep joins.scalar scalar with
        ⟨conflict, apart⟩ | ⟨keep, pair⟩ | ⟨next, bind, pair⟩
      · rw [conflict]
        exact .inr ⟨joins.apart_snoc apart, _, congrArg (· ++ _) agreed.errors, _, _, .head _⟩
      · rw [keep]
        exact .inl ⟨agreed.errors, some bound, found, joins.snoc pair⟩
      · rw [bind]
        exact .inl (binds (joins.snoc pair))

/-- Any number of observations of an unbound parameter. -/
theorem observeAll_scalars (unbound : s.params[param]? = some ⟨name, none⟩)
    (scalars : ∀ ty ∈ seen, ty.isScalar = true) :
    Agreed s param name seen (s.observeAll ctx (ofParam param seen)).value ∨
      Disagreed s name seen (s.observeAll ctx (ofParam param seen)).value := by
  -- A disagreement is never made up again, so it is carried along beside the binding.
  induction seen using List.reverseRecOn with
  | nil => exact .inl ⟨rfl, none, unbound, rfl⟩
  | append_singleton earlier ty ih =>
      obtain ⟨before, last⟩ := List.forall_mem_append.mp scalars
      rw [ofParam_snoc, observeAll_snoc]
      rcases ih before with agreed | disagreed
      · exact agreed.observe widens deep (last ty (.head _))
      · exact .inr (disagreed.observe ty)

end Runs

section Order

/-- The errors that the observations of a parameter add. -/
def recorded (ctx : Context) (s : Inference) (param : Nat) (seen : List Ty) : List InferenceError :=
  (s.observeAll ctx (ofParam param seen)).value.errors.drop s.errors.length

variable (widens : ctx.options.widenLiterals = true) (deep : 0 < ctx.options.maxDepth)
  (unbound : s.params[param]? = some ⟨name, none⟩)

include widens deep unbound

/-- Whether there is a conflict depends on what was seen only. -/
theorem conflicts_iff_apart (scalars : ∀ ty ∈ seen, ty.isScalar = true) :
    Conflicts name (recorded ctx s param seen) ↔ Apart seen := by
  rcases observeAll_scalars widens deep unbound scalars with agreed | disagreed
  · have none : recorded ctx s param seen = [] := by
      rw [recorded, agreed.errors, List.drop_length]
    rw [none]
    exact iff_of_false (not_conflicts_nil name) agreed.not_apart
  · obtain ⟨added, grown, conflicts⟩ := disagreed.recorded
    have all : recorded ctx s param seen = added := by rw [recorded, grown, List.drop_left]
    rw [all]
    exact iff_of_true conflicts disagreed.apart

/-- Without a conflict, the binding is the least scalar above those that were seen. -/
theorem joined_of_not_conflicts (scalars : ∀ ty ∈ seen, ty.isScalar = true)
    (clean : ¬Conflicts name (recorded ctx s param seen)) :
    Joined seen ((s.observeAll ctx (ofParam param seen)).value.binding? param) := by
  rw [conflicts_iff_apart widens deep unbound scalars] at clean
  rcases observeAll_scalars widens deep unbound scalars with agreed | disagreed
  · obtain ⟨bound?, found, joined⟩ := agreed.slot
    rw [binding?, found]
    exact joined
  · exact absurd disagreed.apart clean

/-- Scalars may be observed in any order: there is a conflict in both orders or in neither, and if
there is none, the bindings in the end are equal. -/
theorem observeAll_perm {first second : List Ty} (scalars : ∀ ty ∈ first, ty.isScalar = true)
    (perm : first.Perm second) :
    (Conflicts name (recorded ctx s param first) ↔ Conflicts name (recorded ctx s param second)) ∧
      (¬Conflicts name (recorded ctx s param first) →
        Option.Rel Ty.Same ((s.observeAll ctx (ofParam param first)).value.binding? param)
          ((s.observeAll ctx (ofParam param second)).value.binding? param)) := by
  have others : ∀ ty ∈ second, ty.isScalar = true :=
    fun ty member => scalars ty (perm.mem_iff.mpr member)
  have verdicts : Conflicts name (recorded ctx s param first) ↔
      Conflicts name (recorded ctx s param second) := by
    rw [conflicts_iff_apart widens deep unbound scalars,
      conflicts_iff_apart widens deep unbound others]
    exact apart_congr fun _ => perm.mem_iff
  refine ⟨verdicts, fun clean => ?_⟩
  have joined := joined_of_not_conflicts widens deep unbound scalars clean
  have joinedOther := joined_of_not_conflicts widens deep unbound others (mt verdicts.mpr clean)
  exact joined.rel (fun _ => perm.mem_iff) joinedOther

end Order

/-- The states of a switch. -/
def states : List Ty := [.literal (.text "on"), .literal (.text "off")]

theorem states_perm :
    Option.Rel Ty.Same (some .string)
        ((unbound.observeAll {} (ofParam 0 (.string :: states))).value.binding? 0) ∧
      Conflicts "T" (recorded {} unbound 0 (.number :: states)) := by
  have slot : unbound.params[0]? = some ⟨"T", none⟩ := rfl
  have deep : 0 < ({} : Context).options.maxDepth := by decide
  have texts : ∀ ty ∈ states ++ [.string], ty.isScalar = true := by decide
  have numbers : ∀ ty ∈ states ++ [.number], ty.isScalar = true := by decide
  have clean : recorded {} unbound 0 (states ++ [.string]) = [] := by rfl
  have mixed : Conflicts "T" (recorded {} unbound 0 (states ++ [.number])) :=
    ⟨.string, .number, .head _⟩
  constructor
  · refine (observeAll_perm rfl deep slot texts (List.perm_append_singleton _ _)).2 ?_
    rw [clean]
    exact not_conflicts_nil "T"
  · exact (observeAll_perm rfl deep slot numbers (List.perm_append_singleton _ _)).1.mp mixed

end Inference

end StructuralTypes
