import StructuralTypes.Proofs.Alias.Extension
import StructuralTypes.Proofs.Reordering.Compatibility

set_option autoImplicit false

namespace StructuralTypes

namespace Rule

variable {answer answer' : Answer}

theorem runAll_congr {demands : List Demand}
    (agree : ∀ q, Demand.query q ∈ demands → ∀ walk, answer' q walk = answer q walk)
    (walk : Walk Query) : runAll answer' demands walk = runAll answer demands walk := by
  induction demands generalizing walk with
  | nil => rfl
  | cons demand demands ih =>
      have rest := ih fun q member => agree q (.tail _ member)
      cases demand with
      | refuse => rfl
      | query q => simp only [runAll, agree q (.head _), rest]

theorem runAny_congr {queries : List Query}
    (agree : ∀ q ∈ queries, ∀ walk, answer' q walk = answer q walk) (walk : Walk Query) :
    runAny answer' queries walk = runAny answer queries walk := by
  induction queries generalizing walk with
  | nil => rfl
  | cons q queries ih =>
      have rest := ih fun p member => agree p (.tail _ member)
      simp only [runAny, agree q (.head _), rest]

/-- A rule runs alike for answers that are alike on its queries. -/
theorem run_congr (rule : Rule)
    (agree : ∀ q ∈ rule.queries, ∀ walk, answer' q walk = answer q walk) (walk : Walk Query) :
    rule.run answer' walk = rule.run answer walk := by
  cases rule with
  | allOf demands => exact runAll_congr (fun q member => agree q (mem_queries_allOf.mpr member)) walk
  | anyOf queries => exact runAny_congr agree walk

end Rule

namespace Query

/-- What the name stands for has no influence on the answer: neither side looks it up, or both sides
are one type, or a side that does not look it up is enough for a positive answer. -/
inductive Indifferent (aliases : AliasMap) (name : String) (q : Query) : Prop
  | unread (value : ¬ q.value.LooksUp name) (target : ¬ q.target.LooksUp name)
  | equal (same : q.value = q.target)
  | byTarget (unread : ¬ q.target.LooksUp name) (any : (aliases.concrete q.target).isAny = true)
  | byValue (unread : ¬ q.value.LooksUp name)
    (accepted : (aliases.concrete q.value).isAny = true ∨ (aliases.concrete q.value).isNever = true)

variable {aliases : AliasMap} {d : AliasDefinition} {q : Query}

/-- A test for the first two cases, where the one type is the name itself. -/
def unreadOrItself (name : String) (q : Query) : Bool :=
  decide (¬ q.value.LooksUp name ∧ ¬ q.target.LooksUp name) ||
    q.value.refName? == some name && q.target.refName? == some name

theorem Indifferent.of_test {name : String} (passed : q.unreadOrItself name = true) :
    q.Indifferent aliases name := by
  rw [unreadOrItself, Bool.or_eq_true, Bool.and_eq_true, decide_eq_true_eq, beq_iff_eq,
    beq_iff_eq] at passed
  rcases passed with ⟨value, target⟩ | ⟨value, target⟩
  · exact .unread value target
  · exact .equal ((AliasMap.eq_ref_of_refName? value).trans (AliasMap.eq_ref_of_refName? target).symm)

theorem settled?_of_equal (same : q.value = q.target) : q.settled? = some true := by
  rw [settled?, same, Ty.same_self]
  grind

theorem settled?_of_target (any : q.target.isAny = true) : q.settled? = some true := by
  rw [settled?, any]
  rfl

theorem settled?_of_value (accepted : q.value.isAny = true ∨ q.value.isNever = true) :
    q.settled? = some true := by
  rw [settled?]
  rcases accepted with any | never
  · rw [any, Bool.or_true]
    rfl
  · rw [never]
    split <;> rfl

theorem Indifferent.concrete_or_settled (unmentioned : aliases.Unmentioned d.name)
    (known : q.Indifferent aliases d.name) :
    q.concrete (aliases.insert d) = q.concrete aliases ∨
      (q.concrete (aliases.insert d)).settled? = some true ∧
        (q.concrete aliases).settled? = some true := by
  cases known with
  | unread value target =>
      left
      rw [Query.concrete, AliasMap.concrete_insert unmentioned value,
        AliasMap.concrete_insert unmentioned target, Query.concrete]
  | equal same =>
      right
      constructor
      · exact settled?_of_equal (congrArg (aliases.insert d).concrete same)
      · exact settled?_of_equal (congrArg aliases.concrete same)
  | byTarget unread any =>
      have still : ((aliases.insert d).concrete q.target).isAny = true := by
        rw [AliasMap.concrete_insert unmentioned unread, any]
      exact Or.inr ⟨settled?_of_target still, settled?_of_target any⟩
  | byValue unread accepted =>
      have still : ((aliases.insert d).concrete q.value).isAny = true ∨
          ((aliases.insert d).concrete q.value).isNever = true := by
        rw [AliasMap.concrete_insert unmentioned unread]
        exact accepted
      exact Or.inr ⟨settled?_of_value still, settled?_of_value accepted⟩

end Query

section Questions

variable {aliases : AliasMap} {start q : Query} {value target : Ty} {shape : Shape Ty}

theorem settled?_of_intersection {members : List Ty} (shaped : target.asShape? = some shape) :
    Query.settled? ⟨.intersectionOf members, target⟩ = none := by
  cases target with
  | object shape => rfl
  | record key value => rfl
  | _ => cases shaped

/-- The members of an intersection that is compared with a shape are compared with it too. -/
theorem Asked.member {members : List Ty} {m : Ty} (shaped : target.asShape? = some shape)
    (concrete : q.concrete aliases = ⟨.intersectionOf members, target⟩)
    (asked : Asked aliases start q) (listed : m ∈ members) : Asked aliases start ⟨m, target⟩ := by
  have undecided : (q.concrete aliases).settled? = none := by
    rw [concrete, settled?_of_intersection shaped]
  have rule : Rule.of aliases (q.concrete aliases) = Rule.intersectionSource aliases members target := by
    rw [concrete]
    cases target with
    | object shape => rfl
    | record key value => rfl
    | _ => cases shaped
  refine .premise asked undecided ?_
  rw [rule]
  exact List.mem_append_left _ (List.mem_map_of_mem listed)

section Indifferent

variable {d : AliasDefinition}
  (indifferent : ∀ q, Asked aliases start q → q.Indifferent aliases d.name)

include indifferent

/-- The name is no member of what is compared with a shape, because then it would be compared with
the shape itself. -/
theorem not_meets_of_asked (shaped : target.asShape? = some shape)
    (asked : Asked aliases start ⟨value, target⟩) : ¬ value.Meets d.name := by
  have own : aliases.concrete target = target := AliasMap.concrete_of_asShape? shaped
  intro meets
  induction meets with
  | here =>
      cases indifferent _ asked with
      | unread value target => exact value rfl
      | equal same =>
          cases same
          cases shaped
      | byTarget unread any =>
          rw [own] at any
          cases target with
          | primitive kind => cases shaped
          | _ => cases any
      | byValue unread accepted => exact unread rfl
  | @member members m listed _ ih =>
      refine ih (asked.member shaped ?_ listed)
      rw [Query.concrete, own, AliasMap.concrete_eq_self rfl (by rintro subject ⟨⟩)]

theorem Rule.of_insert (unmentioned : aliases.Unmentioned d.name) (asked : Asked aliases start q) :
    Rule.of (aliases.insert d) (q.concrete aliases) = Rule.of aliases (q.concrete aliases) := by
  generalize concrete : q.concrete aliases = p
  obtain ⟨value, target⟩ := p
  have source (members : List Ty) (meets : value = .intersectionOf members) :
      intersectionSource (aliases.insert d) members target =
        intersectionSource aliases members target := by
    cases meets
    rw [intersectionSource, intersectionSource]
    cases shaped : target.asShape? with
    | none => rfl
    | some shape =>
        have apart : ¬ (Ty.intersectionOf members).Meets d.name := by
          rintro (_ | ⟨listed, inside⟩)
          exact not_meets_of_asked indifferent shaped (asked.member shaped concrete listed) inside
        rw [AliasMap.merge_insert unmentioned apart]
  cases value with
  | intersectionOf members => cases target <;> first | rfl | exact source members rfl
  | _ => cases target <;> rfl

end Indifferent

end Questions

namespace Context

variable (ctx : Context) {start : Query} {d : AliasDefinition}

/-- The settings with one more definition. -/
def define (d : AliasDefinition) : Context := { ctx with aliases := ctx.aliases.insert d }

section Definitions

variable (unmentioned : ctx.aliases.Unmentioned d.name)
  (indifferent : ∀ q, Asked ctx.aliases start q → q.Indifferent ctx.aliases d.name)

include unmentioned indifferent

theorem check_define (levels : Nat) {q : Query} (asked : Asked ctx.aliases start q)
    (walk : Walk Query) : (ctx.define d).check levels q walk = ctx.check levels q walk := by
  -- The two runs ask the same questions on the same walks, so the walk is left open.
  induction levels generalizing q walk with
  | zero => rfl
  | succ levels ih =>
      have either := (indifferent q asked).concrete_or_settled unmentioned
      rw [check, check]
      dsimp only
      rcases either with same | ⟨settled', settled⟩
      · have concrete : q.concrete (ctx.define d).aliases = q.concrete ctx.aliases := same
        have rule : Rule.of (ctx.define d).aliases (q.concrete ctx.aliases) =
            Rule.of ctx.aliases (q.concrete ctx.aliases) :=
          Rule.of_insert indifferent unmentioned asked
        rw [concrete, rule]
        cases undecided : (q.concrete ctx.aliases).settled? with
        | some answer => rfl
        | none =>
            have premises := (Rule.of ctx.aliases (q.concrete ctx.aliases)).run_congr
              fun p member => ih (.premise asked undecided member)
            simp only [premises]
      · have concrete : (q.concrete (ctx.define d).aliases).settled? = some true := settled'
        rw [concrete, settled]

end Definitions

/-- A definition of a name that no body refers to has no influence on a comparison, nor on whether it
is cut short, if every question that the comparison may come to is indifferent to the name. -/
theorem compatible_define (unmentioned : ctx.aliases.Unmentioned d.name) {value target : Ty}
    (indifferent : ∀ q, Asked ctx.aliases ⟨value, target⟩ q → q.Indifferent ctx.aliases d.name) :
    (ctx.define d).compatible value target = ctx.compatible value target := by
  have unfolded (c : Context) : c.compatible value target =
      ⟨(c.check c.levels ⟨value, target⟩ c.walk).1,
        (c.check c.levels ⟨value, target⟩ c.walk).2.exceeded⟩ := rfl
  have outcome : (ctx.define d).check (ctx.define d).levels ⟨value, target⟩ (ctx.define d).walk =
      ctx.check ctx.levels ⟨value, target⟩ ctx.walk :=
    ctx.check_define unmentioned indifferent ctx.levels .start ctx.walk
  rw [unfolded, unfolded, outcome]

/-- A name for numbers. -/
def counting : Context where
  aliases := { definitions := [⟨"Count", [], .number⟩] }

/-- A function that makes an item of any type a counted item. -/
def counter (count : Ty) : Ty :=
  .function
    { typeParams := [⟨"T", none⟩]
      params := [.ref "T"]
      result := .object { properties := [⟨"item", .ref "T", false⟩, ⟨"count", count, false⟩] } }

theorem counter_define :
    (counting.define ⟨"T", [], .string⟩).compatible (counter (.ref "Count")) (counter .number) =
        counting.compatible (counter (.ref "Count")) (counter .number) ∧
      (counting.compatible (counter (.ref "Count")) (counter .number)).value = true := by
  refine ⟨counting.compatible_define (by decide +kernel) fun q asked => .of_test ?_, by decide +kernel⟩
  exact forall_asked_of_within counting.aliases 4 (by decide +kernel) q asked

/-- A function without parameters, with type parameters of the given names. -/
def producer (params : List String) (result : Ty) : Ty :=
  .function { typeParams := params.map (⟨·, none⟩), params := [], result }

/-- Two functions in which a name is at most a type parameter are compared with and without a
definition of it. No limit is hit, and the answers are as given. -/
def ReadsParameter (name : String) (body f g : Ty) (without within : Bool) : Prop :=
  ¬ f.OccursFree name ∧ ¬ g.OccursFree name ∧ ¬ body.OccursFree name ∧
    (({} : Context).compatible f g).cut = false ∧
    ((({} : Context).define ⟨name, [], body⟩).compatible f g).cut = false ∧
    (({} : Context).compatible f g).value = without ∧
    ((({} : Context).define ⟨name, [], body⟩).compatible f g).value = within

instance (name : String) (body f g : Ty) (without within : Bool) :
    Decidable (ReadsParameter name body f g without within) :=
  inferInstanceAs (Decidable (_ ∧ _ ∧ _ ∧ _ ∧ _ ∧ _ ∧ _))

/-- A type parameter is compared as the name that it is, so that a definition of this name lets a
function pass that produces a value of any type for one that produces a text, and lets a function
that produces any key no longer pass for it. -/
theorem parameter_read_as_name :
    ReadsParameter "T" .string (producer ["T"] (.ref "T")) (producer [] .string) false true ∧
      ReadsParameter "T" (.object { properties := [⟨"a", .number, false⟩] })
        (producer ["T"] (.keyof (.ref "T"))) (producer [] .string) true false := by
  decide +kernel

end Context

end StructuralTypes
