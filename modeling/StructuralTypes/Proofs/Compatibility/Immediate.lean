import StructuralTypes.Proofs.Compatibility.Literal
import StructuralTypes.Proofs.Compatibility.Scope

set_option autoImplicit false

namespace StructuralTypes

/-- Equal types are compatible before any rule is tried. -/
theorem Query.settled?_of_same {q : Query} (same : q.value.Same q.target) :
    q.settled? = some true := by
  have anys := Ty.isAny_same same
  have nevers := Ty.isNever_same same
  rw [settled?, anys, nevers, show q.value.same q.target = true from same]
  grind

namespace Context

variable (ctx : Context) {value target : Ty}

theorem compatible_of_settled {answer : Bool}
    (settled : (Query.concrete ⟨value, target⟩ ctx.aliases).settled? = some answer) :
    ctx.compatible value target = ⟨answer, false⟩ := by
  have run : ctx.check ctx.levels ⟨value, target⟩ ctx.walk = (answer, ctx.walk) := by
    rw [levels, check]
    simp only [settled]
  rw [compatible, run]
  rfl

theorem compatible_of_equal (same : (ctx.aliases.concrete value).Same (ctx.aliases.concrete target)) :
    (ctx.compatible value target).value = true := by
  rw [ctx.compatible_of_settled (Query.settled?_of_same same)]

/-- A new comparison may enter its first query, unless no depth at all is allowed. -/
theorem enter_walk (deep : 0 < ctx.options.maxDepth) (q : Query) :
    ctx.walk.enter q = (.entered, ctx.walk.inside q) := by
  have first : ¬ Limits.maxEntries < min (0 + 1) Limits.countCap := by decide
  have room : ¬ Limits.maxOpen ≤ 0 := by decide
  have shallow : ¬ ctx.options.maxDepth ≤ 0 := by omega
  simp [Walk.enter, Walk.inside, Walk.counted, walk, first, room, shallow]

/-- A rule that asks nothing answers at once. -/
theorem compatible_of_verdict (deep : 0 < ctx.options.maxDepth) {answer : Bool}
    (unsettled : (Query.concrete ⟨value, target⟩ ctx.aliases).settled? = none)
    (rule : Rule.of ctx.aliases (Query.concrete ⟨value, target⟩ ctx.aliases) = .verdict answer) :
    ctx.compatible value target = ⟨answer, false⟩ := by
  rw [compatible, levels, check]
  simp only [unsettled, ctx.enter_walk deep, rule]
  cases answer <;> rfl

/-- A union accepts what it lists. -/
theorem compatible_of_listed (deep : 0 < ctx.options.maxDepth) {members : List Ty}
    (union : ctx.aliases.concrete target = .unionOf members)
    (single : (ctx.aliases.concrete value).isUnion = false)
    (listed : (ctx.aliases.concrete value).isAmong members = true) :
    (ctx.compatible value target).value = true := by
  have query : Query.concrete ⟨value, target⟩ ctx.aliases =
      ⟨ctx.aliases.concrete value, .unionOf members⟩ := by
    rw [Query.concrete, union]
  have rule : Rule.of ctx.aliases (Query.concrete ⟨value, target⟩ ctx.aliases) = .verdict true := by
    rw [query]
    generalize ctx.aliases.concrete value = v at single listed ⊢
    cases v with
    | unionOf others => cases single
    | _ => simp only [Rule.of, Rule.unionTarget, listed, if_true]
  cases settled : (Query.concrete ⟨value, target⟩ ctx.aliases).settled? with
  | none => rw [ctx.compatible_of_verdict deep settled rule]
  | some answer =>
      rw [ctx.compatible_of_settled settled]
      simp only [query, Query.settled?, Ty.isNever] at settled
      grind

end Context

section Literals

variable {aliases : AliasMap} {around : List Query} {q : Query} {l : Literal}

theorem Ty.exists_literal {ty : Ty} (isLiteral : ty.isLiteral = true) : ∃ l, ty = .literal l := by
  cases ty with
  | literal l => exact ⟨l, rfl⟩
  | _ => cases isLiteral

/-- The last step of a derivation. -/
theorem Derivable.justified (derived : Derivable aliases around q) :
    around.contains (q.concrete aliases) = true ∨
      Justified aliases (fun v t => Derivable aliases (q.concrete aliases :: around) ⟨v, t⟩)
        (q.concrete aliases).value (q.concrete aliases).target := by
  refine Derivable.justifiedInduction (motive := fun around q =>
    around.contains (q.concrete aliases) = true ∨
      Justified aliases (fun v t => Derivable aliases (q.concrete aliases :: around) ⟨v, t⟩)
        (q.concrete aliases).value (q.concrete aliases).target) ?cycle ?step derived
  case cycle => exact fun _ _ _ known => Or.inl known
  case step => exact fun _ _ step => Or.inr (step.mono fun _ _ premise => premise.1)

/-- A literal goes only where an equal one is expected. -/
theorem same_of_derivable {k : Literal} (apart : ∀ p ∈ around, p.target.isLiteral = false)
    (derived : Derivable aliases around ⟨.literal l, .literal k⟩) : l.same k = true := by
  have own : Query.concrete ⟨.literal l, .literal k⟩ aliases = ⟨.literal l, .literal k⟩ := by
    rw [Query.concrete, concrete_literal, concrete_literal]
  have step := derived.justified
  rw [own] at step
  rcases step with known | justified
  · obtain ⟨p, inside, _, equal⟩ := (contains_iff _ _).mp known
    obtain ⟨m, isLiteral, _⟩ := Ty.exists_literal_of_same equal
    have other := apart p inside
    rw [isLiteral] at other
    cases other
  · cases aboveLiteral_of_justified justified with
    | literal equal => exact equal

/-- A union of literals accepts nothing but what it lists. -/
theorem isAmong_of_derivable {target : Ty}
    (literals : ∀ m ∈ (aliases.concrete target).unionMembers, m.isLiteral = true)
    (derived : Derivable aliases [] ⟨.literal l, target⟩) :
    (Ty.literal l).isAmong (aliases.concrete target).unionMembers = true := by
  have step := derived.justified
  rw [Query.concrete, concrete_literal] at step
  generalize aliases.concrete target = keys at literals step ⊢
  rw [Ty.isAmong_iff]
  rcases step with known | justified
  · cases known
  · cases aboveLiteral_of_justified justified with
    | any => cases literals _ (.head _)
    | base => cases literals _ (.head _)
    | intersection => cases literals _ (.head _)
    | @literal k equal => exact ⟨.literal k, .head _, Literal.same_symm equal⟩
    | @union members m listed accepts =>
        refine ⟨m, listed, ?_⟩
        rcases accepts with same | premise
        · exact same
        · obtain ⟨k, rfl⟩ := Ty.exists_literal (literals m listed)
          refine Literal.same_symm (same_of_derivable (fun p inside => ?_) premise)
          cases List.mem_singleton.mp inside
          rfl

end Literals

namespace Context

/-- A union of literals accepts exactly what it lists. -/
theorem compatible_literal_iff (ctx : Context) (deep : 0 < ctx.options.maxDepth) {target : Ty}
    {l : Literal} (literals : ∀ m ∈ (ctx.aliases.concrete target).unionMembers, m.isLiteral = true) :
    (ctx.compatible (.literal l) target).value = true ↔
      (Ty.literal l).isAmong (ctx.aliases.concrete target).unionMembers = true := by
  constructor
  · intro accepted
    exact isAmong_of_derivable literals (ctx.derivable_of_compatible accepted)
  · intro among
    have own : ctx.aliases.concrete (.literal l) = .literal l := concrete_literal l
    cases keys : ctx.aliases.concrete target with
    | unionOf members =>
        rw [keys] at among
        refine ctx.compatible_of_listed deep keys ?_ ?_
        · rw [own]
          rfl
        · rw [own]
          exact among
    | literal k =>
        rw [keys] at among
        obtain ⟨m, listed, same⟩ := (Ty.isAmong_iff _ _).mp among
        cases List.mem_singleton.mp listed
        refine ctx.compatible_of_equal ?_
        rw [own, keys]
        exact Literal.same_symm same
    | _ =>
        rw [keys] at literals
        cases literals _ (.head _)

end Context

end StructuralTypes
