import StructuralTypes.Proofs.ObjectLiteral.Checks

set_option autoImplicit false

namespace StructuralTypes

/-- A member of a union that a literal is tried against. -/
def AliasMap.tries (aliases : AliasMap) (member : Ty) : Bool :=
  (aliases.concrete member).asShape?.isSome || (aliases.concrete member).isIntersection

theorem AliasMap.isUnion_of_tries {aliases : AliasMap} {member : Ty}
    (tried : aliases.tries member = true) : (aliases.concrete member).isUnion = false := by
  rw [tries] at tried
  cases shape : aliases.concrete member with
  | unionOf members =>
      rw [shape] at tried
      cases tried
  | _ => rfl

namespace ObjectLiteral

variable {best? : Option (List Finding)} {findings : List Finding}

theorem fewer_cases (best? : Option (List Finding)) (findings : List Finding) :
    fewer best? findings = findings ∨ best? = some (fewer best? findings) := by
  cases best? with
  | none => exact Or.inl rfl
  | some best =>
      rw [fewer]
      split
      · exact Or.inl rfl
      · exact Or.inr rfl

theorem length_fewer_le (best? : Option (List Finding)) (findings : List Finding) :
    (fewer best? findings).length ≤ findings.length := by
  cases best? with
  | none => exact Nat.le_refl _
  | some best =>
      rw [fewer]
      split <;> omega

theorem length_fewer_le_best (best findings : List Finding) :
    (fewer (some best) findings).length ≤ best.length := by
  rw [fewer]
  split <;> omega

end ObjectLiteral

namespace Context

open ObjectLiteral

section Search

variable {ctx : Context} {check : Ty → Limited (List Finding)} {best? : Option (List Finding)}
  {m : Ty} {members : List Ty}

theorem unionFindings_skip (skipped : ctx.aliases.tries m = false) :
    ctx.unionFindings check best? (m :: members) = ctx.unionFindings check best? members := by
  rw [AliasMap.tries] at skipped
  simp only [unionFindings, skipped, Bool.false_eq_true, if_false]

theorem unionFindings_try (tried : ctx.aliases.tries m = true) :
    (ctx.unionFindings check best? (m :: members)).value =
      if (check (ctx.aliases.concrete m)).value = [] then some []
      else (ctx.unionFindings check
        (some (fewer best? (check (ctx.aliases.concrete m)).value)) members).value := by
  rw [AliasMap.tries] at tried
  simp only [unionFindings, tried, if_true, Limited.value_bind, List.isEmpty_iff]
  split <;> rfl

/-- A member without findings ends the search, whatever was found before. -/
theorem unionFindings_of_clean (listed : m ∈ members) (tried : ctx.aliases.tries m = true)
    (clean : (check (ctx.aliases.concrete m)).value = []) :
    (ctx.unionFindings check best? members).value = some [] := by
  induction members generalizing best? with
  | nil => cases listed
  | cons first rest ih =>
      rcases List.mem_cons.mp listed with rfl | later
      · rw [unionFindings_try tried, if_pos clean]
      · cases attempt : ctx.aliases.tries first with
        | false =>
            rw [unionFindings_skip attempt]
            exact ih later
        | true =>
            rw [unionFindings_try attempt]
            split
            · rfl
            · exact ih later

/-- Without a member to try, the search finds nothing new. -/
theorem unionFindings_of_untried (untried : ∀ m ∈ members, ctx.aliases.tries m = false) :
    ctx.unionFindings check best? members = pure best? := by
  induction members with
  | nil => rfl
  | cons first rest ih =>
      obtain ⟨skipped, others⟩ := List.forall_mem_cons.mp untried
      rw [unionFindings_skip skipped]
      exact ih others

/-- The findings of a member that has the fewest of all that were tried, those that were kept from
before included. -/
structure Closest (ctx : Context) (check : Ty → Limited (List Finding))
    (best? : Option (List Finding)) (members : List Ty) (findings : List Finding) : Prop where
  found : best? = some findings ∨
    ∃ m ∈ members, ctx.aliases.tries m = true ∧ (check (ctx.aliases.concrete m)).value = findings
  fewest : ∀ m ∈ members, ctx.aliases.tries m = true →
    findings.length ≤ (check (ctx.aliases.concrete m)).value.length
  kept : ∀ best, best? = some best → findings.length ≤ best.length

/-- A search in which every member that is tried has findings ends with the fewest of them. -/
theorem unionFindings_closest (best? : Option (List Finding))
    (dirty : ∀ m ∈ members, ctx.aliases.tries m = true →
      (check (ctx.aliases.concrete m)).value ≠ [])
    (something : best? ≠ none ∨ ∃ m ∈ members, ctx.aliases.tries m = true) :
    ∃ findings, (ctx.unionFindings check best? members).value = some findings ∧
      Closest ctx check best? members findings := by
  induction members generalizing best? with
  | nil =>
      obtain ⟨best, rfl⟩ := Option.ne_none_iff_exists'.mp (something.resolve_right (by simp))
      refine ⟨best, rfl, Or.inl rfl, nofun, ?_⟩
      rintro _ ⟨⟩
      exact Nat.le_refl _
  | cons first rest ih =>
      obtain ⟨dirtyFirst, dirtyRest⟩ := List.forall_mem_cons.mp dirty
      cases attempt : ctx.aliases.tries first with
      | false =>
          have others : best? ≠ none ∨ ∃ m ∈ rest, ctx.aliases.tries m = true := by
            simpa [attempt] using something
          obtain ⟨findings, result, closest⟩ := ih best? dirtyRest others
          refine ⟨findings, (congrArg _ (unionFindings_skip attempt)).trans result, ?_, ?_,
            closest.kept⟩
          · exact closest.found.imp_right fun ⟨m, listed, rest⟩ => ⟨m, .tail _ listed, rest⟩
          · refine List.forall_mem_cons.mpr ⟨fun tried => ?_, closest.fewest⟩
            rw [attempt] at tried
            cases tried
      | true =>
          let own := (check (ctx.aliases.concrete first)).value
          obtain ⟨findings, result, closest⟩ := ih (some (fewer best? own)) dirtyRest (Or.inl nofun)
          have atMost : findings.length ≤ (fewer best? own).length := closest.kept _ rfl
          refine ⟨findings, ?_, ?_, ?_, ?_⟩
          · rw [unionFindings_try attempt, if_neg (dirtyFirst attempt)]
            exact result
          · rcases closest.found with same | ⟨m, listed, others⟩
            · -- the findings that were kept so far are those of this member or older ones
              rcases fewer_cases best? own with new | old
              · exact Or.inr ⟨first, .head _, attempt, by rw [← Option.some.inj same, new]⟩
              · exact Or.inl (old.trans same)
            · exact Or.inr ⟨m, .tail _ listed, others⟩
          · refine List.forall_mem_cons.mpr ⟨fun _ => ?_, closest.fewest⟩
            exact Nat.le_trans atMost (length_fewer_le best? own)
          · rintro best rfl
            exact Nat.le_trans atMost (length_fewer_le_best best own)

end Search

section Literals

variable {ctx : Context} {literal : Shape Ty} {target m : Ty} {members : List Ty}

/-- A member that is tried is tried as if it stood alone. -/
theorem validateLiteral_of_tries (tried : ctx.aliases.tries m = true) :
    ctx.validateLiteral (.object literal) m =
      ctx.literalFindings none (.object literal) (ctx.shapeFindings none (.object literal))
        (ctx.aliases.concrete m) :=
  targetFindings_single (AliasMap.isUnion_of_tries tried)

theorem validateLiteral_union (union : ctx.aliases.concrete target = .unionOf members) :
    (ctx.validateLiteral (.object literal) target).value =
      match (ctx.unionFindings (ctx.literalFindings none (.object literal)
        (ctx.shapeFindings none (.object literal))) none members).value with
      | some findings => findings
      | none => (ctx.fallback none (.object literal) (.unionOf members)).value := by
  rw [validateLiteral, targetFindings, union]
  dsimp only
  rw [Limited.value_bind]
  generalize (unionFindings _ _ _ members).value = best?
  cases best? with
  | some best => rfl
  | none => rfl

theorem fallback_eq_nil_iff {value : Ty} :
    (ctx.fallback none value target).value = [] ↔ (ctx.compatible value target).value = true := by
  constructor
  · exact fallback_clean
  · intro accepted
    rw [fallback, Limited.value_bind, accepted]
    rfl

variable (union : ctx.aliases.concrete target = .unionOf members)

include union

/-- A member that is tried and has no findings accepts the literal for the union. -/
theorem validateLiteral_of_clean (listed : m ∈ members) (tried : ctx.aliases.tries m = true)
    (clean : (ctx.validateLiteral (.object literal) m).value = []) :
    (ctx.validateLiteral (.object literal) target).value = [] := by
  rw [validateLiteral_of_tries tried] at clean
  rw [validateLiteral_union union, unionFindings_of_clean listed tried clean]

/-- A union without a member to try is only compared. -/
theorem validateLiteral_of_untried (untried : ∀ m ∈ members, ctx.aliases.tries m = false) :
    (ctx.validateLiteral (.object literal) target).value = [] ↔
      (ctx.compatible (.object literal) target).value = true := by
  have written : ctx.aliases.concrete (.unionOf members) = .unionOf members :=
    AliasMap.concrete_eq_self rfl fun _ => Ty.noConfusion
  have resolved : Query.concrete ⟨.object literal, target⟩ ctx.aliases =
      Query.concrete ⟨.object literal, .unionOf members⟩ ctx.aliases := by
    rw [Query.concrete, Query.concrete, union, written]
  rw [validateLiteral_union union, unionFindings_of_untried untried, ctx.compatible_congr resolved]
  exact fallback_eq_nil_iff

/-- If all members that are tried have findings, the fewest are reported. -/
theorem validateLiteral_closest
    (dirty : ∀ m ∈ members, ctx.aliases.tries m = true →
      (ctx.validateLiteral (.object literal) m).value ≠ [])
    (something : ∃ m ∈ members, ctx.aliases.tries m = true) :
    ∃ m ∈ members, ctx.aliases.tries m = true ∧
      (ctx.validateLiteral (.object literal) target).value =
        (ctx.validateLiteral (.object literal) m).value ∧
      ∀ other ∈ members, ctx.aliases.tries other = true →
        (ctx.validateLiteral (.object literal) m).value.length ≤
          (ctx.validateLiteral (.object literal) other).value.length := by
  have dirtyTried (m : Ty) (listed : m ∈ members) (tried : ctx.aliases.tries m = true) := by
    have found := dirty m listed tried
    rw [validateLiteral_of_tries tried] at found
    exact found
  obtain ⟨best, result, closest⟩ := unionFindings_closest none dirtyTried (Or.inr something)
  obtain ⟨m, listed, tried, found⟩ := closest.found.resolve_left nofun
  refine ⟨m, listed, tried, ?_, fun other inside triedOther => ?_⟩
  · rw [validateLiteral_union union, result, validateLiteral_of_tries tried, found]
  · rw [validateLiteral_of_tries tried, validateLiteral_of_tries triedOther, found]
    exact closest.fewest other inside triedOther

end Literals

/-- Where a union is expected, there are no findings exactly if a member that the literal is tried
against has none, or if there is no member to try and the literal is compatible. If all members that
are tried have findings, those of a member with the fewest are reported. -/
theorem validateLiteral_members (ctx : Context) (literal : Shape Ty) (target : Ty)
    (members : List Ty) (union : ctx.aliases.concrete target = .unionOf members) :
    let findings := fun ty => (ctx.validateLiteral (.object literal) ty).value
    (findings target = [] ↔
      (∃ m ∈ members, ctx.aliases.tries m = true ∧ findings m = []) ∨
        (∀ m ∈ members, ctx.aliases.tries m = false) ∧
          (ctx.compatible (.object literal) target).value = true) ∧
    ((∀ m ∈ members, ctx.aliases.tries m = true → findings m ≠ []) →
      (∃ m ∈ members, ctx.aliases.tries m = true) →
      ∃ m ∈ members, ctx.aliases.tries m = true ∧ findings target = findings m ∧
        ∀ other ∈ members, ctx.aliases.tries other = true →
          (findings m).length ≤ (findings other).length) := by
  intro findings
  have closest (dirty : ∀ m ∈ members, ctx.aliases.tries m = true → findings m ≠ [])
      (something : ∃ m ∈ members, ctx.aliases.tries m = true) :=
    validateLiteral_closest union dirty something
  refine ⟨⟨fun clean => ?_, ?_⟩, closest⟩
  · by_cases something : ∃ m ∈ members, ctx.aliases.tries m = true
    · left
      by_contra none
      have dirty (m : Ty) (listed : m ∈ members) (tried : ctx.aliases.tries m = true) :
          findings m ≠ [] := fun empty => none ⟨m, listed, tried, empty⟩
      obtain ⟨m, listed, tried, same, -⟩ := closest dirty something
      exact dirty m listed tried (same.symm.trans clean)
    · right
      have untried (m : Ty) (listed : m ∈ members) : ctx.aliases.tries m = false :=
        Bool.eq_false_iff.mpr fun tried => something ⟨m, listed, tried⟩
      exact ⟨untried, (validateLiteral_of_untried union untried).mp clean⟩
  · rintro (⟨m, listed, tried, clean⟩ | ⟨untried, accepted⟩)
    · exact validateLiteral_of_clean union listed tried clean
    · exact (validateLiteral_of_untried union untried).mpr accepted

/-- A name for a circle, one for the two ways to give its size, and a union of a circle with a
square. -/
def figures : Context where
  aliases :=
    { definitions :=
        [⟨"Circle", [], .object { properties := [⟨"radius", .number, false⟩] }⟩,
          ⟨"Round", [], .unionOf [.object { properties := [⟨"radius", .number, false⟩] },
            .object { properties := [⟨"diameter", .number, false⟩] }]⟩,
          ⟨"Figure", [], .unionOf [.object { properties := [⟨"side", .number, false⟩] },
            .ref "Circle", .null]⟩] }

/-- A circle that is written in place. -/
def freshCircle : Shape Ty :=
  { properties := [⟨"radius", .literal (.number ⟨0x3ff0000000000000⟩), false⟩], fresh := true }

/-- The name of the circle is followed, so the literal is accepted by the second member. -/
theorem freshCircle_accepted :
    (figures.validateLiteral (.object freshCircle) (.ref "Circle")).value = [] ∧
      (figures.validateLiteral (.object freshCircle) (.ref "Figure")).value = [] := by
  have clean : (figures.validateLiteral (.object freshCircle) (.ref "Circle")).value = [] := by
    decide +kernel
  have accepts := (figures.validateLiteral_members freshCircle (.ref "Figure") _ rfl).1.mpr
  exact ⟨clean, accepts (Or.inl ⟨.ref "Circle", by simp, by decide +kernel, clean⟩)⟩

/-- A literal that a name for a union accepts, and that is accepted where this union is written out,
is refused by the union of the name with one more object: only the latter is tried. -/
theorem named_union_not_tried :
    let square : Ty := .object { properties := [⟨"side", .number, false⟩] }
    let named : Ty := .union [.ref "Round", square]
    let written : Ty := .union [figures.aliases.concrete (.ref "Round"), square]
    (figures.validateLiteral (.object freshCircle) (.ref "Round")).value = [] ∧
      (figures.validateLiteral (.object freshCircle) written).value = [] ∧
      (figures.compatible (.object freshCircle) named).value = true ∧
      ((figures.validateLiteral (.object freshCircle) named).value.map fun f => (f.code, f.args)) =
        [(.missingProperty, ["side"]), (.excessProperty, ["radius"])] ∧
      (figures.validateLiteral (.object freshCircle) (.ref "Round")).cut = false ∧
      (figures.validateLiteral (.object freshCircle) named).cut = false := by
  decide +kernel

end Context

end StructuralTypes
