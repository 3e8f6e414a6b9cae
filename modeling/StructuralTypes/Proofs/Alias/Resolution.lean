import StructuralTypes.Proofs.NormalForm.Aliases

set_option autoImplicit false

namespace StructuralTypes.AliasMap

/-- The type is a reference to a declared name. -/
def declares (aliases : AliasMap) : Ty → Bool
  | .ref name => aliases.contains name
  | _ => false

/-- The given names are declared, and from the type one comes to them one after the other and then,
by the body of the last, to `current`. -/
inductive Passes (aliases : AliasMap) : Ty → List String → Ty → Prop
  | stay (ty : Ty) : Passes aliases ty [] ty
  | step {name : String} {d : AliasDefinition} {names : List String} {current : Ty}
    (found : aliases.find? name = some d) (rest : Passes aliases d.body names current) :
    Passes aliases (.ref name) (name :: names) current

/-- The ways in which the chain from a type stops. -/
inductive Outcome (aliases : AliasMap) (ty : Ty) : Except ResolutionError Ty → Prop
  | reached {names : List String} {last : Ty} (passes : aliases.Passes ty names last)
    (final : aliases.declares last = false) (distinct : names.Nodup)
    (within : names.length ≤ aliases.maxDepth) : Outcome aliases ty (.ok last)
  | returned {names : List String} {name : String} (passes : aliases.Passes ty names (.ref name))
    (declared : aliases.contains name = true) (distinct : names.Nodup) (again : name ∈ names)
    (within : names.length ≤ aliases.maxDepth) :
    Outcome aliases ty (.error (.circular name (names ++ [name])))
  | exhausted {names : List String} {name : String} (passes : aliases.Passes ty names (.ref name))
    (declared : aliases.contains name = true) (distinct : (names ++ [name]).Nodup)
    (all : names.length = aliases.maxDepth) :
    Outcome aliases ty (.error (.tooDeep name aliases.maxDepth))

variable {aliases : AliasMap} {ty current last : Ty} {names chain : List String} {name : String}
  {left : Nat}

theorem nodup_snoc_iff : (names ++ [name]).Nodup ↔ name ∉ names ∧ names.Nodup := by
  rw [← List.concat_eq_append, List.nodup_concat]

section Passing

theorem Passes.snoc {d : AliasDefinition} (passes : aliases.Passes ty names (.ref name))
    (found : aliases.find? name = some d) : aliases.Passes ty (names ++ [name]) d.body := by
  generalize same : Ty.ref name = current at passes
  induction passes with
  | stay =>
      subst same
      exact .step found (.stay d.body)
  | step first rest ih => exact .step first (ih same)

/-- A chain that passes a name goes on from there as the chain of that name. -/
theorem Passes.resume {earlier later : List String}
    (passes : aliases.Passes ty (earlier ++ name :: later) last) :
    aliases.Passes (.ref name) (name :: later) last := by
  induction earlier generalizing ty with
  | nil =>
      cases passes with
      | step found rest => exact .step found rest
  | cons first earlier ih =>
      cases passes with
      | step found rest => exact ih rest

/-- Distinct names are followed as long as there are enough steps left. -/
theorem follow_of_passes (chain : List String) (passes : aliases.Passes ty names current)
    (distinct : (chain ++ names).Nodup) (left : Nat) :
    aliases.follow (left + names.length) chain ty = aliases.follow left (chain ++ names) current := by
  induction passes generalizing chain with
  | stay => rw [List.length_nil, Nat.add_zero, List.append_nil]
  | @step name d names current found rest ih =>
      have shift : chain ++ name :: names = chain ++ [name] ++ names := by simp
      have new : chain.contains name = false := by
        rw [List.nodup_append] at distinct
        simpa using fun listed => distinct.2.2 name listed name (.head _) rfl
      rw [shift] at distinct ⊢
      rw [List.length_cons, ← Nat.add_assoc, follow, found]
      simp only [new]
      exact ih (chain ++ [name]) distinct

end Passing

section Stopping

theorem follow_of_final (final : aliases.declares last = false) :
    aliases.follow left chain last = .ok last := by
  cases last with
  | ref name =>
      have undeclared : aliases.find? name = none := by simpa [declares, contains] using final
      rw [follow, undeclared]
  | _ => exact follow_of_refName?_eq_none rfl

theorem follow_of_again (declared : aliases.contains name = true) (again : name ∈ chain) :
    aliases.follow left chain (.ref name) = .error (.circular name (chain ++ [name])) := by
  obtain ⟨d, found⟩ := Option.isSome_iff_exists.mp declared
  rw [follow, found]
  simp only [List.contains_iff_mem.mpr again, if_true]

theorem follow_of_exhausted (declared : aliases.contains name = true) (new : name ∉ chain) :
    aliases.follow 0 chain (.ref name) = .error (.tooDeep name aliases.maxDepth) := by
  obtain ⟨d, found⟩ := Option.isSome_iff_exists.mp declared
  have absent : chain.contains name = false := by simpa using new
  rw [follow, found]
  simp only [absent]
  rfl

/-- What was followed so far are distinct names on the chain from the type, and together with the
steps left they are as many as may be followed. One step keeps this, so the run ends in one of the
outcomes. -/
theorem outcome_of_follow (passes : aliases.Passes ty chain current) (distinct : chain.Nodup)
    (count : chain.length + left = aliases.maxDepth) :
    aliases.Outcome ty (aliases.follow left chain current) := by
  fun_induction follow aliases left chain current with
  | case1 left chain name undeclared =>
      have final : aliases.declares (.ref name) = false := by
        rw [declares, contains, undeclared]
        rfl
      exact .reached passes final distinct (by omega)
  | case2 left chain name d found again =>
      have declared : aliases.contains name = true := by rw [contains, found]; rfl
      exact .returned passes declared distinct (List.contains_iff_mem.mp again) (by omega)
  | case3 chain name d found new =>
      have declared : aliases.contains name = true := by rw [contains, found]; rfl
      refine .exhausted passes declared ?_ (by omega)
      exact nodup_snoc_iff.mpr ⟨by simpa using new, distinct⟩
  | case4 chain name d found new left ih =>
      refine ih (passes.snoc found) ?_ ?_
      · exact nodup_snoc_iff.mpr ⟨by simpa using new, distinct⟩
      · rw [List.length_append, List.length_singleton]
        omega
  | case5 left chain current single =>
      have final : aliases.declares current = false := by
        cases current with
        | ref name => exact absurd rfl (single name)
        | _ => rfl
      exact .reached passes final distinct (by omega)

theorem Outcome.tryResolve_eq {result : Except ResolutionError Ty}
    (outcome : aliases.Outcome ty result) : aliases.tryResolve ty = result := by
  have run {names : List String} {current : Ty} (passes : aliases.Passes ty names current)
      (distinct : names.Nodup) (within : names.length ≤ aliases.maxDepth) :
      aliases.tryResolve ty = aliases.follow (aliases.maxDepth - names.length) names current := by
    have count : aliases.maxDepth - names.length + names.length = aliases.maxDepth := by omega
    rw [tryResolve]
    conv_lhs => rw [← count]
    exact follow_of_passes [] passes distinct _
  cases outcome with
  | reached passes final distinct within =>
      rw [run passes distinct within, follow_of_final final]
  | returned passes declared distinct again within =>
      rw [run passes distinct within, follow_of_again declared again]
  | @exhausted names name passes declared distinct all =>
      obtain ⟨new, distinct⟩ := nodup_snoc_iff.mp distinct
      rw [run passes distinct (Nat.le_of_eq all), all, Nat.sub_self, follow_of_exhausted declared new]

/-- A resolution has exactly one outcome. -/
theorem tryResolve_eq_iff {result : Except ResolutionError Ty} :
    aliases.tryResolve ty = result ↔ aliases.Outcome ty result := by
  constructor
  · rintro rfl
    exact outcome_of_follow (.stay ty) List.nodup_nil (Nat.zero_add _)
  · exact Outcome.tryResolve_eq

end Stopping

section Outcomes

theorem tryResolve_ok_iff : aliases.tryResolve ty = .ok last ↔
    ∃ names, aliases.Passes ty names last ∧ aliases.declares last = false ∧ names.Nodup ∧
      names.length ≤ aliases.maxDepth := by
  rw [tryResolve_eq_iff]
  constructor
  · intro outcome
    cases outcome with
    | reached passes final distinct within => exact ⟨_, passes, final, distinct, within⟩
  · rintro ⟨names, passes, final, distinct, within⟩
    exact .reached passes final distinct within

theorem tryResolve_circular_iff : aliases.tryResolve ty = .error (.circular name chain) ↔
    ∃ names, chain = names ++ [name] ∧ aliases.Passes ty names (.ref name) ∧
      aliases.contains name = true ∧ names.Nodup ∧ name ∈ names ∧
        names.length ≤ aliases.maxDepth := by
  rw [tryResolve_eq_iff]
  constructor
  · intro outcome
    cases outcome with
    | returned passes declared distinct again within =>
        exact ⟨_, rfl, passes, declared, distinct, again, within⟩
  · rintro ⟨names, rfl, passes, declared, distinct, again, within⟩
    exact .returned passes declared distinct again within

theorem tryResolve_tooDeep_iff {limit : Nat} :
    aliases.tryResolve ty = .error (.tooDeep name limit) ↔
      limit = aliases.maxDepth ∧ ∃ names, aliases.Passes ty names (.ref name) ∧
        aliases.contains name = true ∧ (names ++ [name]).Nodup ∧
          names.length = aliases.maxDepth := by
  rw [tryResolve_eq_iff]
  constructor
  · intro outcome
    cases outcome with
    | exhausted passes declared distinct all => exact ⟨rfl, _, passes, declared, distinct, all⟩
  · rintro ⟨rfl, names, passes, declared, distinct, all⟩
    exact .exhausted passes declared distinct all

/-- A name on a circle leads back to itself, in no more steps than it took to find the circle. -/
theorem resolve_of_circular (circular : aliases.tryResolve ty = .error (.circular name chain)) :
    aliases.resolve (.ref name) = .ref name := by
  obtain ⟨names, _, passes, declared, distinct, again, within⟩ := tryResolve_circular_iff.mp circular
  -- What comes before the first passing of the name is not on the circle.
  obtain ⟨earlier, later, rfl⟩ := List.append_of_mem again
  have own : aliases.Outcome (.ref name) (.error (.circular name (name :: later ++ [name]))) := by
    refine .returned passes.resume declared ?_ (.head _) ?_
    · exact distinct.sublist (List.sublist_append_right earlier _)
    · rw [List.length_append] at within
      omega
  rw [resolve, own.tryResolve_eq]
  rfl

/-- Where resolution stops for another reason than the number of names, it stops again at once. -/
theorem resolve_resolve_of_enough
    (enough : ∀ name limit, aliases.tryResolve ty ≠ .error (.tooDeep name limit)) :
    aliases.resolve (aliases.resolve ty) = aliases.resolve ty := by
  cases stopped : aliases.tryResolve ty with
  | ok last =>
      obtain ⟨names, _, final, _⟩ := tryResolve_ok_iff.mp stopped
      have once : aliases.resolve ty = last := by rw [resolve, stopped]
      rw [once, resolve, tryResolve, follow_of_final final]
  | error e =>
      have once : aliases.resolve ty = .ref e.name := by rw [resolve, stopped]
      rw [once]
      cases e with
      | circular name chain => exact resolve_of_circular stopped
      | tooDeep name limit => exact absurd stopped (enough name limit)

end Outcomes

/-- The outcome of a resolution is read off the chain of declared names from the type, and resolving
again changes nothing unless there were too many names. -/
theorem tryResolve_classifies (aliases : AliasMap) (ty : Ty) :
    (∀ last, aliases.tryResolve ty = .ok last ↔
      ∃ names, aliases.Passes ty names last ∧ aliases.declares last = false ∧ names.Nodup ∧
        names.length ≤ aliases.maxDepth) ∧
    (∀ name chain, aliases.tryResolve ty = .error (.circular name chain) ↔
      ∃ names, chain = names ++ [name] ∧ aliases.Passes ty names (.ref name) ∧
        aliases.contains name = true ∧ names.Nodup ∧ name ∈ names ∧
          names.length ≤ aliases.maxDepth) ∧
    (∀ name limit, aliases.tryResolve ty = .error (.tooDeep name limit) ↔
      limit = aliases.maxDepth ∧ ∃ names, aliases.Passes ty names (.ref name) ∧
        aliases.contains name = true ∧ (names ++ [name]).Nodup ∧
          names.length = aliases.maxDepth) ∧
    ((∀ name limit, aliases.tryResolve ty ≠ .error (.tooDeep name limit)) →
      aliases.resolve (aliases.resolve ty) = aliases.resolve ty) :=
  ⟨fun _ => tryResolve_ok_iff, fun _ _ => tryResolve_circular_iff,
    fun _ _ => tryResolve_tooDeep_iff, resolve_resolve_of_enough⟩

/-- A way into a circle of two names, as long as may be followed. -/
def detour : AliasMap where
  definitions :=
    [⟨"Entry", [], .ref "Left"⟩, ⟨"Left", [], .ref "Right"⟩, ⟨"Right", [], .ref "Left"⟩]
  maxDepth := 3

/-- The return is found after three names, and not with one name less to follow. -/
theorem detour_returns :
    detour.tryResolve (.ref "Entry") =
        .error (.circular "Left" ["Entry", "Left", "Right", "Left"]) ∧
      detour.resolve (detour.resolve (.ref "Entry")) = detour.resolve (.ref "Entry") ∧
      { detour with maxDepth := 2 }.tryResolve (.ref "Entry") = .error (.tooDeep "Right" 2) := by
  have passes : detour.Passes (.ref "Entry") ["Entry", "Left", "Right"] (.ref "Left") :=
    .step rfl (.step rfl (.step rfl (.stay _)))
  have shorter : { detour with maxDepth := 2 }.Passes (.ref "Entry") ["Entry", "Left"] (.ref "Right") :=
    .step rfl (.step rfl (.stay _))
  have circular := ((tryResolve_classifies detour (.ref "Entry")).2.1 "Left" _).mpr
    ⟨["Entry", "Left", "Right"], rfl, passes, rfl, by decide, by decide, by decide⟩
  have tooDeep := ((tryResolve_classifies { detour with maxDepth := 2 } (.ref "Entry")).2.2.1
    "Right" 2).mpr ⟨rfl, ["Entry", "Left"], shorter, rfl, by decide, rfl⟩
  refine ⟨circular, (tryResolve_classifies detour (.ref "Entry")).2.2.2 ?_, tooDeep⟩
  intro name limit exhausted
  rw [circular] at exhausted
  cases exhausted

end StructuralTypes.AliasMap
