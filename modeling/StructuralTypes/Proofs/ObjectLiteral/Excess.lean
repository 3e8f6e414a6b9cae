import StructuralTypes.Proofs.ObjectLiteral.Unions

/-!
Comparisons do not look at the switch. So off takes reports away and changes nothing else, as long as
no union is met: there the members compete with the numbers of their findings, and another one may win
when the excess properties do not count.
-/

set_option autoImplicit false

namespace StructuralTypes

open ObjectLiteral

/-- A union is met as a target in the checks of a literal, where the literal itself or one inside of
it is expected to fit. -/
inductive AliasMap.MeetsUnion (aliases : AliasMap) : Shape Ty → Ty → Prop
  | here {literal : Shape Ty} {target : Ty}
    (union : (aliases.concrete target).isUnion = true) : MeetsUnion aliases literal target
  | inside {literal checked own : Shape Ty} {target : Ty} {p slot : Property Ty}
    (shaped : aliases.checkedShape? (aliases.concrete target) = some checked)
    (member : p ∈ literal.properties) (isObject : p.ty = .object own) (fresh : own.fresh = true)
    (found : slot? checked p.name = some slot) (met : MeetsUnion aliases own slot.ty) :
    MeetsUnion aliases literal target

def Finding.isExcess : Finding → Bool
  | excessProperty _ => true
  | _ => false

theorem Code.ofNumber?_number (code : Code) : Code.ofNumber? code.number = some code := by
  cases code <;> decide

theorem Finding.kind?_report {Location : Type} (finding : Finding) (location : Location) :
    (finding.report location).kind? = some finding.code.kind := by
  show (Code.ofNumber? finding.code.number).map Code.kind = _
  rw [Code.ofNumber?_number, Option.map_some]

theorem Finding.isExcess_iff {Location : Type} (finding : Finding) (location : Location) :
    finding.isExcess = true ↔ (finding.report location).kind? = some .excessProperty := by
  rw [kind?_report]
  cases finding <;> simp [isExcess, code, Code.kind]

namespace Context

/-- The same definitions and settings, with reports of excess properties on or off. -/
def withExcess (ctx : Context) (reported : Bool) : Context :=
  { ctx with options := { ctx.options with excessProperties := reported } }

theorem check_withExcess (ctx : Context) (reported : Bool) (levels : Nat) :
    (ctx.withExcess reported).check levels = ctx.check levels := by
  induction levels with
  | zero => rfl
  | succ levels ih =>
      funext query walk
      rw [check, check, ih]
      rfl

theorem compatible_withExcess (ctx : Context) (reported : Bool) :
    (ctx.withExcess reported).compatible = ctx.compatible := by
  funext value target
  rw [compatible, check_withExcess]
  rfl

/-- A relation between the findings with reports of excess properties and those without, which holds
however the findings of a literal are put together. -/
structure Concession (related : List Finding → List Finding → Prop) : Prop where
  plain : ∀ findings, (∀ f ∈ findings, f.isExcess = false) → related findings findings
  excess : ∀ path, related [.excessProperty path] []
  append : ∀ {a a' b b'}, related a a' → related b b' → related (a ++ b) (a' ++ b')

section Comparisons

variable {ctx : Context} {path? : Option String} {literal checked : Shape Ty} {value target : Ty}
  {related : List Finding → List Finding → Prop}

theorem fallback_withExcess (reported : Bool) :
    (ctx.withExcess reported).fallback path? value target = ctx.fallback path? value target := by
  unfold fallback
  rw [compatible_withExcess]

theorem valueFindings_withExcess (reported : Bool) (path : String) (slot : Property Ty) :
    (ctx.withExcess reported).valueFindings path value slot = ctx.valueFindings path value slot := by
  rw [valueFindings, valueFindings, compatible_withExcess]

theorem fallback_plain : ∀ f ∈ (ctx.fallback path? value target).value, f.isExcess = false := by
  unfold fallback
  rw [Limited.value_bind]
  split
  · exact List.forall_mem_nil _
  · cases path? <;> exact List.forall_mem_singleton.mpr rfl

theorem valueFindings_plain {path : String} {slot : Property Ty} :
    ∀ f ∈ (ctx.valueFindings path value slot).value, f.isExcess = false := by
  rw [valueFindings, Limited.value_bind]
  split
  · exact List.forall_mem_nil _
  · exact List.forall_mem_singleton.mpr rfl

theorem missing_plain {properties slots : List (Property Ty)} :
    ∀ f ∈ missing path? properties slots, f.isExcess = false :=
  List.forall_mem_map.mpr fun _ _ => rfl

/-- Without a shape to check against, there are no findings or those of a comparison. -/
theorem literalFindings_unshaped (unshaped : ctx.aliases.checkedShape? target = none) :
    (∀ reported against,
      (ctx.withExcess reported).literalFindings path? value against target = pure []) ∨
    ∀ reported against, (ctx.withExcess reported).literalFindings path? value against target =
      ctx.fallback path? value target := by
  cases target with
  | object own => cases unshaped
  | record key value => cases unshaped
  | primitive kind =>
      cases kind with
      | any => exact Or.inl fun _ _ => rfl
      | _ => exact Or.inr fun reported _ => fallback_withExcess reported
  | intersectionOf members =>
      rw [AliasMap.checkedShape?] at unshaped
      cases merges : ctx.aliases.merge (.intersectionOf members) with
      | shape shape =>
          rw [merges] at unshaped
          cases unshaped
      | any =>
          refine Or.inl fun reported _ => ?_
          unfold literalFindings
          have merges' : (ctx.withExcess reported).aliases.merge (.intersectionOf members) = .any :=
            merges
          simp only [merges']
      | notMergeable =>
          refine Or.inr fun reported _ => ?_
          unfold literalFindings
          have merges' : (ctx.withExcess reported).aliases.merge (.intersectionOf members) =
            .notMergeable := merges
          simp only [merges', fallback_withExcess]
  | _ => exact Or.inr fun reported _ => fallback_withExcess reported

/-- Two ways to check a literal against the shape of a target give related findings for the target,
if that is not a union. -/
theorem literalFindings_related (concession : Concession related)
    {against against' : Shape Ty → Limited (List Finding)}
    (each : ∀ checked, ctx.aliases.checkedShape? target = some checked →
      related (against checked).value (against' checked).value) :
    related ((ctx.withExcess true).literalFindings path? value against target).value
      ((ctx.withExcess false).literalFindings path? value against' target).value := by
  cases shaped : ctx.aliases.checkedShape? target with
  | some checked =>
      have shapedIn (reported : Bool) :
          (ctx.withExcess reported).aliases.checkedShape? target = some checked := shaped
      rw [literalFindings_checked (shapedIn true), literalFindings_checked (shapedIn false)]
      exact each checked shaped
  | none =>
      rcases literalFindings_unshaped shaped with nothing | compared
      · rw [nothing, nothing]
        exact concession.plain [] (List.forall_mem_nil _)
      · rw [compared, compared]
        exact concession.plain _ fallback_plain

end Comparisons

section Unions

variable {ctx : Context} {check : Ty → Limited (List Finding)} {best? : Option (List Finding)}
  {findings : List Finding} {members : List Ty}

/-- What a search among members ends with was found at one of them, or before. -/
theorem unionFindings_source (result : (ctx.unionFindings check best? members).value = some findings) :
    best? = some findings ∨
      ∃ m ∈ members, ctx.aliases.tries m = true ∧ (check (ctx.aliases.concrete m)).value = findings := by
  induction members generalizing best? with
  | nil => exact Or.inl result
  | cons first rest ih =>
      have later (found : ∃ m ∈ rest, ctx.aliases.tries m = true ∧
          (check (ctx.aliases.concrete m)).value = findings) :
          ∃ m ∈ first :: rest, ctx.aliases.tries m = true ∧
            (check (ctx.aliases.concrete m)).value = findings := by
        obtain ⟨m, listed, others⟩ := found
        exact ⟨m, .tail _ listed, others⟩
      cases attempt : ctx.aliases.tries first with
      | false =>
          rw [unionFindings_skip attempt] at result
          exact (ih result).imp_right later
      | true =>
          rw [unionFindings_try attempt] at result
          split at result
          case isTrue clean =>
            cases result
            exact Or.inr ⟨first, .head _, attempt, clean⟩
          case isFalse =>
            rcases ih result with kept | found
            · rcases fewer_cases best? (check (ctx.aliases.concrete first)).value with new | old
              · refine Or.inr ⟨first, .head _, attempt, ?_⟩
                rw [← new]
                exact Option.some.inj kept
              · exact Or.inl (old.trans kept)
            · exact Or.inr (later found)

/-- A search that finds nothing had no member to try. -/
theorem untried_of_unionFindings (nothing : (ctx.unionFindings check best? members).value = none) :
    best? = none ∧ ∀ m ∈ members, ctx.aliases.tries m = false := by
  induction members generalizing best? with
  | nil => exact ⟨nothing, nofun⟩
  | cons first rest ih =>
      cases attempt : ctx.aliases.tries first with
      | false =>
          rw [unionFindings_skip attempt] at nothing
          exact ⟨(ih nothing).1, List.forall_mem_cons.mpr ⟨attempt, (ih nothing).2⟩⟩
      | true =>
          rw [unionFindings_try attempt] at nothing
          split at nothing
          · cases nothing
          · cases (ih nothing).1

theorem targetFindings_union {path? : Option String} {value target : Ty}
    {against : Shape Ty → Limited (List Finding)}
    (union : ctx.aliases.concrete target = .unionOf members) :
    (ctx.targetFindings path? value against target).value =
      match (ctx.unionFindings (ctx.literalFindings path? value against) none members).value with
      | some findings => findings
      | none => (ctx.fallback path? value (.unionOf members)).value := by
  rw [targetFindings, union]
  dsimp only
  rw [Limited.value_bind]
  cases (ctx.unionFindings (ctx.literalFindings path? value against) none members).value <;> rfl

/-- The relation also holds where members of a union compete. -/
def HoldsOnUnions (ctx : Context) (related : List Finding → List Finding → Prop) : Prop :=
  ∀ (path? : Option String) (value target : Ty) (against against' : Shape Ty → Limited (List Finding)),
    (ctx.aliases.concrete target).isUnion = true →
    (∀ checked, related (against checked).value (against' checked).value) →
    related ((ctx.withExcess true).targetFindings path? value against target).value
      ((ctx.withExcess false).targetFindings path? value against' target).value

/-- No findings with the reports on are no findings with them off. -/
def StaysClean (findings findings' : List Finding) : Prop := findings = [] → findings' = []

/-- Whatever is found with the reports on, nothing is reported as excess with them off. -/
def NoExcess (_ findings' : List Finding) : Prop := ∀ f ∈ findings', f.isExcess = false

/-- Only findings of excess properties are lost. -/
def OnlyExcessLost (findings findings' : List Finding) : Prop :=
  findings' = findings.filter fun f => !f.isExcess

theorem staysClean_concession : Concession StaysClean where
  plain _ _ := id
  excess _ := nofun
  append first second clean := by
    rw [List.append_eq_nil_iff] at clean ⊢
    exact ⟨first clean.1, second clean.2⟩

theorem noExcess_concession : Concession NoExcess where
  plain _ none := none
  excess _ := List.forall_mem_nil _
  append first second := List.forall_mem_append.mpr ⟨first, second⟩

theorem onlyExcessLost_concession : Concession OnlyExcessLost where
  plain findings none := by
    refine (List.filter_eq_self.mpr fun f member => ?_).symm
    rw [none f member]
    rfl
  excess _ := rfl
  append first second := by rw [OnlyExcessLost, List.filter_append, first, second]

/-- A member that accepts the literal accepts it without reports of excess properties too. -/
theorem staysClean_holdsOnUnions : HoldsOnUnions ctx StaysClean := by
  intro path? value target against against' union each clean
  obtain ⟨members, resolved⟩ := Ty.exists_unionOf union
  have resolvedIn (reported : Bool) :
      (ctx.withExcess reported).aliases.concrete target = .unionOf members := resolved
  rw [targetFindings_union (resolvedIn true)] at clean
  rw [targetFindings_union (resolvedIn false)]
  split at clean
  case h_1 findings result =>
    obtain ⟨m, listed, tried, found⟩ := (unionFindings_source result).resolve_left nofun
    have cleanOff : ((ctx.withExcess false).literalFindings path? value against'
        (ctx.aliases.concrete m)).value = [] :=
      literalFindings_related staysClean_concession (fun checked _ => each checked)
        (found.trans clean)
    have triedOff : (ctx.withExcess false).aliases.tries m = true := tried
    rw [unionFindings_of_clean listed triedOff cleanOff]
  case h_2 nothing =>
    have untried : ∀ m ∈ members, (ctx.withExcess false).aliases.tries m = false :=
      (untried_of_unionFindings nothing).2
    rw [unionFindings_of_untried untried]
    rw [fallback_withExcess] at clean ⊢
    exact clean

theorem noExcess_holdsOnUnions : HoldsOnUnions ctx NoExcess := by
  intro path? value target against against' union each
  obtain ⟨members, resolved⟩ := Ty.exists_unionOf union
  have resolvedOff : (ctx.withExcess false).aliases.concrete target = .unionOf members := resolved
  rw [targetFindings_union resolvedOff]
  split
  case h_1 findings result =>
    obtain ⟨m, listed, tried, found⟩ := (unionFindings_source result).resolve_left nofun
    rw [← found]
    exact literalFindings_related noExcess_concession fun checked _ => each checked
  case h_2 => exact fallback_plain

end Unions

section Literals

variable {ctx : Context} {related : List Finding → List Finding → Prop}

theorem flatMap_related (concession : Concession related) {α : Type} {as : List α}
    {f g : α → List Finding} (each : ∀ a ∈ as, related (f a) (g a)) :
    related (as.flatMap f) (as.flatMap g) := by
  induction as with
  | nil => exact concession.plain [] (List.forall_mem_nil _)
  | cons a as ih =>
      rw [List.flatMap_cons, List.flatMap_cons]
      exact concession.append (each a (.head _)) (ih fun b later => each b (.tail _ later))

/-- Findings against a shape are related if those of the literals inside of the literal are. -/
theorem shapeFindings_related (concession : Concession related) {literal checked : Shape Ty}
    {path? : Option String}
    (nested : ∀ p ∈ literal.properties, ∀ own, p.ty = .object own → own.fresh = true → ∀ slot,
      slot? checked p.name = some slot → ∀ path? : Option String,
      related
        ((ctx.withExcess true).targetFindings path? (.object own)
          ((ctx.withExcess true).shapeFindings path? (.object own)) slot.ty).value
        ((ctx.withExcess false).targetFindings path? (.object own)
          ((ctx.withExcess false).shapeFindings path? (.object own)) slot.ty).value) :
    related ((ctx.withExcess true).shapeFindings path? (.object literal) checked).value
      ((ctx.withExcess false).shapeFindings path? (.object literal) checked).value := by
  rw [shapeFindings_value, shapeFindings_value]
  refine concession.append (concession.plain _ missing_plain) (flatMap_related concession ?_)
  intro p member
  unfold slotFindings
  cases found : slot? checked p.name with
  | none => exact concession.excess _
  | some slot =>
      by_cases fresh : p.ty.isFreshLiteral = true
      · simp only [fresh, if_true]
        cases isObject : p.ty with
        | object own =>
            rw [isObject] at fresh
            exact nested p member own isObject fresh slot found _
        | _ =>
            rw [isObject] at fresh
            cases fresh
      · simp only [fresh]
        rw [if_neg Bool.false_ne_true, if_neg Bool.false_ne_true, valueFindings_withExcess,
          valueFindings_withExcess]
        exact concession.plain _ valueFindings_plain

/-- Findings for a literal are related, if the relation also holds on unions or none is met. -/
theorem targetFindings_related (concession : Concession related) {literal : Shape Ty} {target : Ty}
    {path? : Option String}
    (unions : ctx.aliases.MeetsUnion literal target → HoldsOnUnions ctx related) :
    related
      ((ctx.withExcess true).targetFindings path? (.object literal)
        ((ctx.withExcess true).shapeFindings path? (.object literal)) target).value
      ((ctx.withExcess false).targetFindings path? (.object literal)
        ((ctx.withExcess false).shapeFindings path? (.object literal)) target).value := by
  generalize written : Ty.object literal = ty
  induction ty using Ty.childrenInduction generalizing literal target path? with
  | step ty ih =>
      subst written
      by_cases union : (ctx.aliases.concrete target).isUnion = true
      · have holds := unions (.here union)
        refine holds path? _ target _ _ union fun checked => ?_
        refine shapeFindings_related concession ?_
        intro p member own isObject fresh slot found path?
        exact ih (.object own) (isObject ▸ Ty.property_mem_children member) (fun _ => holds) rfl
      · rw [Bool.not_eq_true] at union
        have single (reported : Bool) :
            ((ctx.withExcess reported).aliases.concrete target).isUnion = false := union
        rw [targetFindings_single (single true), targetFindings_single (single false)]
        refine literalFindings_related concession fun checked shaped => ?_
        refine shapeFindings_related concession ?_
        intro p member own isObject fresh slot found path?
        exact ih (.object own) (isObject ▸ Ty.property_mem_children member)
          (fun met => unions (.inside shaped member isObject fresh found met)) rfl

end Literals

/-- Without reports of excess properties, a literal that had no findings still has none, and no excess
property is reported. Where no union is met, nothing but those reports is lost. -/
theorem validateLiteral_excess {Location : Type} (ctx : Context) (literal : Shape Ty) (target : Ty)
    (location : Location) :
    let reports := fun reported => ((ctx.withExcess reported).validateLiteral (.object literal)
      target).value.map fun finding => finding.report location
    (reports true = [] → reports false = []) ∧
      (∀ d ∈ reports false, d.kind? ≠ some .excessProperty) ∧
      (¬ ctx.aliases.MeetsUnion literal target →
        reports false = (reports true).filter fun d => d.kind? ≠ some .excessProperty) := by
  intro reports
  refine ⟨?_, ?_, ?_⟩
  · intro clean
    have cleanOff := targetFindings_related staysClean_concession (fun _ => staysClean_holdsOnUnions)
      (List.map_eq_nil_iff.mp clean)
    exact List.map_eq_nil_iff.mpr cleanOff
  · refine List.forall_mem_map.mpr fun finding member => ?_
    have plain := targetFindings_related noExcess_concession (fun _ => noExcess_holdsOnUnions)
      finding member
    rw [Ne, ← Finding.isExcess_iff, plain]
    exact Bool.false_ne_true
  · intro noUnion
    have lost : OnlyExcessLost
        ((ctx.withExcess true).validateLiteral (.object literal) target).value
        ((ctx.withExcess false).validateLiteral (.object literal) target).value :=
      targetFindings_related onlyExcessLost_concession fun met => (noUnion met).elim
    have kinds : ((fun d : Diagnostic Location => decide (d.kind? ≠ some .excessProperty)) ∘
        fun finding : Finding => finding.report location) = fun f => !f.isExcess := by
      funext f
      rw [Function.comp_apply, decide_not, Bool.not_inj_iff, Bool.eq_iff_iff, decide_eq_true_eq]
      exact (f.isExcess_iff location).symm
    show List.map _ _ = List.filter _ (List.map _ _)
    rw [List.filter_map, kinds]
    exact congrArg _ lost

/-- A line has two ends, and an end has two coordinates. -/
def lines : Context where
  aliases :=
    { definitions :=
        [⟨"End", [], .object { properties := [⟨"x", .number, false⟩, ⟨"y", .number, false⟩] }⟩,
          ⟨"Line", [], .object { properties := [⟨"from", .ref "End", false⟩,
            ⟨"to", .ref "End", true⟩] }⟩] }

/-- An end that is written in place, with a coordinate too many and one of another type. -/
def freshEnd : Shape Ty :=
  { properties := [⟨"x", .number, false⟩, ⟨"z", .number, false⟩, ⟨"y", .string, false⟩], fresh := true }

/-- A line that is written in place, with one end and a property too many. -/
def freshLine : Shape Ty :=
  { properties := [⟨"width", .number, false⟩, ⟨"from", .object freshEnd, false⟩], fresh := true }

/-- Neither the line nor its end is expected to be a union. -/
theorem freshLine_meets_no_union : ¬ lines.aliases.MeetsUnion freshLine (.ref "Line") := by
  rintro (union | ⟨shaped, member, isObject, fresh, found, met⟩)
  · exact absurd union (by decide)
  · cases (rfl : lines.aliases.checkedShape? (lines.aliases.concrete (.ref "Line")) =
      some { properties := [⟨"from", .ref "End", false⟩, ⟨"to", .ref "End", true⟩] }).symm.trans shaped
    simp only [freshLine, List.mem_cons, List.not_mem_nil, or_false] at member
    rcases member with rfl | rfl
    · cases isObject
    · cases isObject
      cases (rfl : slot? _ "from" = some ⟨"from", .ref "End", false⟩).symm.trans found
      rcases met with union | ⟨_, member, isObject, _, _, _⟩
      · exact absurd union (by decide)
      · simp only [freshEnd, List.mem_cons, List.not_mem_nil, or_false] at member
        rcases member with rfl | rfl | rfl <;> cases isObject

/-- The type of a coordinate is still reported when the coordinate too many is not. -/
theorem freshLine_excess :
    let reports := fun reported => ((lines.withExcess reported).validateLiteral (.object freshLine)
      (.ref "Line")).value.map fun finding => finding.report ()
    (¬ lines.aliases.MeetsUnion freshLine (.ref "Line") ∧ (reports true).length = 3) ∧
      reports false = (reports true).filter fun d => d.kind? ≠ some .excessProperty :=
  ⟨⟨freshLine_meets_no_union, by decide +kernel⟩,
    (validateLiteral_excess lines freshLine (.ref "Line") ()).2.2 freshLine_meets_no_union⟩

/-- Where a union is met, another member may come closest when excess properties do not count. -/
example :
    let named : Ty := .object { properties := [⟨"name", .string, false⟩] }
    let numbered : Ty := .object
      { properties := [⟨"name", .number, false⟩, ⟨"x", .any, true⟩, ⟨"y", .any, true⟩] }
    let literal : Ty := .object
      { properties := [⟨"name", .string, false⟩, ⟨"x", .any, false⟩, ⟨"y", .any, false⟩]
        fresh := true }
    let findings := fun reported => ((({} : Context).withExcess reported).validateLiteral literal
      (.unionOf [named, numbered])).value
    (findings true).length = 1 ∧ (findings true).all (fun f => !f.isExcess) ∧ findings false = [] := by
  decide +kernel

end Context

end StructuralTypes
