import StructuralTypes.Proofs.Compatibility.Literal
import StructuralTypes.Proofs.NormalForm.Inference

set_option autoImplicit false

namespace StructuralTypes

section Fitting

variable {aliases : AliasMap} {value target : Ty}

/-- A value may go where the target is expected: under all settings, the comparison says so unless it
gives up at a limit. -/
def AliasMap.Fits (aliases : AliasMap) (value target : Ty) : Prop :=
  ∀ options : Options, (Context.compatible ⟨aliases, options⟩ value target).cut = false →
    (Context.compatible ⟨aliases, options⟩ value target).value = true

/-- A value fits a target, and this goes on through literals. -/
structure Fitting (aliases : AliasMap) (value target : Ty) : Prop where
  established : Established aliases value target
  fits : aliases.Fits value target

theorem fitting_of_derivable (derived : Derivable aliases [] ⟨value, target⟩) :
    Fitting aliases value target where
  established := established_of_derivable derived
  fits := fun options => Context.compatible_of_derivable ⟨aliases, options⟩ derived

theorem fitting_of_compatible {ctx : Context} (accepted : (ctx.compatible value target).value = true) :
    Fitting ctx.aliases value target := fitting_of_derivable (ctx.derivable_of_compatible accepted)

theorem fitting_of_same (wf : aliases.WellFormed) (wfValue : value.WellFormed)
    (equal : value.Same target) : Fitting aliases value target := by
  apply fitting_of_derivable
  refine .ofJustified (.equal ?_)
  exact AliasMap.concrete_same wf wfValue (wfValue.of_same equal) equal

theorem fitting_refl (ty : Ty) : Fitting aliases ty ty :=
  fitting_of_derivable (.ofJustified (.equal (Ty.same_self _)))

theorem fitting_base (l : Literal) : Fitting aliases (.literal l) (.primitive l.base) := by
  have inhabited : (Ty.primitive l.base).isNever = false := by cases l <;> rfl
  have target : aliases.concrete (.primitive l.base) = .primitive l.base :=
    AliasMap.concrete_eq_self rfl fun _ => Ty.noConfusion
  refine fitting_of_derivable (.ofJustified ?_)
  rw [Query.concrete, concrete_literal, target]
  exact .byShape inhabited (.literalBase l)

/-- What a literal accepts fits wherever the literal fits. -/
theorem Fitting.through (wf : aliases.WellFormed) (wfQuery : Query.WellFormed ⟨value, target⟩)
    {l : Literal} (first : Fitting aliases value (.literal l))
    (second : Fitting aliases (.literal l) target) : Fitting aliases value target := by
  have between : Between aliases value target := ⟨wfQuery, l, first.established, second.established⟩
  refine ⟨between.established wf, fun options => ?_⟩
  exact Context.compatible_of_accepts _ (Context.accepts_of_between ⟨aliases, options⟩ wf between)

end Fitting

namespace Inference

variable {ctx : Context}

/-- What an observation does to a binding if there is no conflict. -/
inductive Moves (ctx : Context) : Option Ty → Ty → Ty → Prop
  | first (observed : Ty) : Moves ctx none observed observed
  | equal {bound observed : Ty} (same : bound.Same observed) : Moves ctx (some bound) observed bound
  | accepted {bound observed : Ty} (accepts : (ctx.compatible observed bound).value = true) :
    Moves ctx (some bound) observed bound
  | widened {a b : Literal} (base : a.base = b.base) :
    Moves ctx (some (.literal a)) (.literal b) (.primitive a.base)
  | replaced {l : Literal} {observed : Ty}
    (accepts : (ctx.compatible (.literal l) observed).value = true) :
    Moves ctx (some (.literal l)) observed observed

section Moves

variable (wf : ctx.aliases.WellFormed) {bound? : Option Ty} {observed next : Ty}

include wf

theorem Moves.fitting_observed (wfObserved : observed.WellFormed) (wfNext : next.WellFormed)
    (moves : Moves ctx bound? observed next) : Fitting ctx.aliases observed next := by
  cases moves with
  | first => exact fitting_refl observed
  | equal same => exact fitting_of_same wf wfObserved (Ty.same_symm wfNext wfObserved same)
  | accepted accepts => exact fitting_of_compatible accepts
  | @widened a b base =>
      rw [base]
      exact fitting_base b
  | replaced accepts => exact fitting_refl observed

omit wf in
theorem Moves.fitting_bound {bound : Ty} (moves : Moves ctx (some bound) observed next) :
    Fitting ctx.aliases bound next := by
  cases moves with
  | equal same => exact fitting_refl _
  | accepted accepts => exact fitting_refl _
  | widened base => exact fitting_base _
  | replaced accepts => exact fitting_of_compatible accepts

/-- A binding that changes was a literal, so what it accepted is accepted through it. -/
theorem Moves.fitting_earlier {bound seen : Ty} (wfSeen : seen.WellFormed) (wfNext : next.WellFormed)
    (moves : Moves ctx (some bound) observed next) (fitting : Fitting ctx.aliases seen bound) :
    Fitting ctx.aliases seen next := by
  have changed := moves.fitting_bound
  cases moves with
  | equal same => exact fitting
  | accepted accepts => exact fitting
  | widened base => exact fitting.through wf ⟨wfSeen, wfNext⟩ changed
  | replaced accepts => exact fitting.through wf ⟨wfSeen, wfNext⟩ changed

end Moves

/-- A verdict other than a conflict is a move. -/
theorem judge_moves (ctx : Context) (bound? : Option Ty) (observed : Ty) :
    (judge ctx bound? observed).value = .conflict ∨
      (∃ bound, bound? = some bound ∧ (judge ctx bound? observed).value = .keep ∧
        Moves ctx bound? observed bound) ∨
      ∃ next, (judge ctx bound? observed).value = .bind next ∧ Moves ctx bound? observed next := by
  cases bound? with
  | none => exact Or.inr (Or.inr ⟨observed, rfl, .first observed⟩)
  | some bound =>
      unfold judge
      dsimp only
      by_cases equal : bound.same observed = true
      · rw [if_pos equal]
        exact Or.inr (Or.inl ⟨bound, rfl, rfl, .equal equal⟩)
      · rw [if_neg equal]
        split
        case h_1 a b =>
          by_cases base : (a.base == b.base && ctx.options.widenLiterals) = true
          · rw [if_pos base]
            rw [Bool.and_eq_true, beq_iff_eq] at base
            exact Or.inr (Or.inr ⟨_, rfl, .widened base.1⟩)
          · rw [if_neg base]
            exact Or.inl rfl
        case h_2 =>
          rw [Limited.value_bind]
          by_cases accepts : (ctx.compatible observed bound).value = true
          · rw [if_pos accepts]
            exact Or.inr (Or.inl ⟨bound, rfl, rfl, .accepted accepts⟩)
          · rw [if_neg accepts]
            cases bound with
            | literal l =>
                have isLiteral : (Ty.literal l).isLiteral = true := rfl
                rw [if_pos isLiteral, Limited.value_bind]
                by_cases wider : (ctx.compatible (.literal l) observed).value = true
                · rw [if_pos wider]
                  exact Or.inr (Or.inr ⟨observed, rfl, .replaced wider⟩)
                · rw [if_neg wider]
                  exact Or.inl rfl
            | _ => exact Or.inl rfl

section State

variable {s : Inference} {param : Nat}

/-- The verdict on an observation decides what happens to the state. -/
theorem observe_eq (ctx : Context) {v : InferenceParam} (found : s.params[param]? = some v)
    (ty : Ty) :
    (s.observe ctx ⟨param, ty⟩).value =
      match (judge ctx v.binding ty).value with
      | .keep => s
      | .bind next => { s with params := s.params.set param { v with binding := some next } }
      | .conflict =>
        let shown := conflictTypes (v.binding.getD .any) ty
        { s with errors := s.errors ++ [.conflict v.name shown.1 shown.2] } := by
  unfold observe
  rw [found]
  dsimp only
  rw [Limited.value_bind]
  cases (judge ctx v.binding ty).value <;> rfl

/-- An observation of a parameter is a conflict, which is recorded and changes nothing else, or it
moves the binding. -/
theorem observe_moves (ctx : Context) {v : InferenceParam} (found : s.params[param]? = some v)
    (ty : Ty) :
    (∃ e, (s.observe ctx ⟨param, ty⟩).value = { s with errors := s.errors ++ [e] }) ∨
      ∃ next, (s.observe ctx ⟨param, ty⟩).value.errors = s.errors ∧
        (s.observe ctx ⟨param, ty⟩).value.binding? param = some next ∧
          Moves ctx v.binding ty next := by
  rw [observe_eq ctx found]
  rcases judge_moves ctx v.binding ty with
    conflict | ⟨bound, own, keep, moves⟩ | ⟨next, bind, moves⟩
  · rw [conflict]
    exact Or.inl ⟨_, rfl⟩
  · rw [keep]
    refine Or.inr ⟨bound, rfl, ?_, moves⟩
    show s.binding? param = some bound
    rw [binding?, found]
    exact own
  · rw [bind]
    refine Or.inr ⟨next, rfl, ?_, moves⟩
    have inside : param < s.params.length := (List.getElem?_eq_some_iff.mp found).1
    show ((s.params.set param { v with binding := some next })[param]?).bind (·.binding) = some next
    rw [List.getElem?_set_self inside]
    rfl

theorem names_observe (ctx : Context) (s : Inference) (o : Observation) :
    (s.observe ctx o).value.names = s.names := by
  cases found : s.params[o.param]? with
  | none =>
      unfold observe
      rw [found]
      rfl
  | some v =>
      rw [observe_eq ctx found]
      split
      · rfl
      · have own : s.names[o.param]? = some v.name := by rw [names, List.getElem?_map, found]; rfl
        obtain ⟨inside, same⟩ := List.getElem?_eq_some_iff.mp own
        rw [names, List.map_set, ← same]
        exact List.set_getElem_self inside
      · rfl

/-- Errors stay on record. -/
theorem errors_observe (ctx : Context) (s : Inference) (o : Observation) :
    ∃ added, (s.observe ctx o).value.errors = s.errors ++ added := by
  cases found : s.params[o.param]? with
  | none =>
      unfold observe
      rw [found]
      exact ⟨[], (List.append_nil _).symm⟩
  | some v =>
      rcases observe_moves ctx found o.ty with ⟨e, conflict⟩ | ⟨_, same, _⟩
      · rw [conflict]
        exact ⟨[e], rfl⟩
      · exact ⟨[], same.trans (List.append_nil _).symm⟩

theorem length_errors_observe (s : Inference) (o : Observation) :
    s.errors.length ≤ (s.observe ctx o).value.errors.length := by
  obtain ⟨added, grown⟩ := errors_observe ctx s o
  rw [grown, List.length_append]
  exact Nat.le_add_right _ _

/-- The observations of one parameter, in order. -/
def ofParam (param : Nat) (observed : List Ty) : List Observation := observed.map (⟨param, ·⟩)

theorem ofParam_snoc (param : Nat) (earlier : List Ty) (ty : Ty) :
    ofParam param (earlier ++ [ty]) = ofParam param earlier ++ [⟨param, ty⟩] := List.map_append

theorem observeAll_snoc (s : Inference) (earlier : List Observation) (o : Observation) :
    (s.observeAll ctx (earlier ++ [o])).value = ((s.observeAll ctx earlier).value.observe ctx o).value := by
  induction earlier generalizing s with
  | nil => rfl
  | cons first rest ih =>
      rw [List.cons_append, observeAll, observeAll, Limited.value_bind, Limited.value_bind, ih]

/-- Observations change bindings, and not what the parameters are. -/
theorem names_observeAll (s : Inference) (os : List Observation) :
    (s.observeAll ctx os).value.names = s.names := by
  induction os using List.reverseRecOn with
  | nil => rfl
  | append_singleton earlier o ih => rw [observeAll_snoc, names_observe, ih]

theorem length_observeAll (s : Inference) (os : List Observation) :
    (s.observeAll ctx os).value.params.length = s.params.length := by
  simpa [names] using congrArg List.length (names_observeAll s os)

theorem length_errors_observeAll (ctx : Context) (s : Inference) (os : List Observation) :
    s.errors.length ≤ (s.observeAll ctx os).value.errors.length := by
  induction os using List.reverseRecOn with
  | nil => exact Nat.le_refl _
  | append_singleton earlier o ih =>
      rw [observeAll_snoc]
      exact Nat.le_trans ih (length_errors_observe _ o)

theorem binding_wellFormed (wf : s.WellFormed) {bound : Ty} (known : s.binding? param = some bound) :
    bound.WellFormed := by
  obtain ⟨v, found, own⟩ := Option.bind_eq_some_iff.mp known
  exact wf v (List.mem_of_getElem? found) bound own

theorem ofParam_sound {observed : List Ty} (wf : ∀ ty ∈ observed, ty.WellFormed) :
    Sound (ofParam param observed) := by
  intro o member
  obtain ⟨ty, listed, rfl⟩ := List.mem_map.mp member
  exact wf ty listed

/-- The binding after one more observation of a declared parameter. -/
theorem observeAll_moves (ctx : Context) (declared : param < s.params.length) (earlier : List Ty)
    (ty : Ty) :
    ((s.observeAll ctx (ofParam param (earlier ++ [ty]))).value.errors.length =
        (s.observeAll ctx (ofParam param earlier)).value.errors.length + 1 ∧
      (s.observeAll ctx (ofParam param (earlier ++ [ty]))).value.binding? param =
        (s.observeAll ctx (ofParam param earlier)).value.binding? param) ∨
    ∃ next, (s.observeAll ctx (ofParam param (earlier ++ [ty]))).value.binding? param = some next ∧
      Moves ctx ((s.observeAll ctx (ofParam param earlier)).value.binding? param) ty next := by
  rw [ofParam_snoc, observeAll_snoc]
  have count : param < (s.observeAll ctx (ofParam param earlier)).value.params.length := by
    rw [length_observeAll]
    exact declared
  generalize (s.observeAll ctx (ofParam param earlier)).value = before at count ⊢
  have found : before.params[param]? = some before.params[param] := List.getElem?_eq_getElem count
  have own : before.binding? param = before.params[param].binding := by
    rw [binding?, found]
    rfl
  rcases observe_moves ctx found ty with ⟨e, conflict⟩ | ⟨next, _, bound, moves⟩
  · rw [conflict]
    exact Or.inl ⟨by simp, rfl⟩
  · rw [own]
    exact Or.inr ⟨next, bound, moves⟩

end State

section Runs

variable (ctx) (wf : ctx.aliases.WellFormed) {s : Inference} (wfState : s.WellFormed) {param : Nat}
  (declared : param < s.params.length)

include wf wfState declared

/-- As long as there is no conflict, the binding accepts all that was seen. -/
theorem fitting_of_observed {observed : List Ty} (wfTypes : ∀ ty ∈ observed, ty.WellFormed)
    (clean : (s.observeAll ctx (ofParam param observed)).value.errors.length = s.errors.length) :
    ∀ ty ∈ observed, ∃ bound,
      (s.observeAll ctx (ofParam param observed)).value.binding? param = some bound ∧
        Fitting ctx.aliases ty bound := by
  induction observed using List.reverseRecOn with
  | nil =>
      intro ty member
      cases member
  | append_singleton earlier last ih =>
      obtain ⟨wfEarlier, wfLast⟩ := List.forall_mem_append.mp wfTypes
      have before := length_errors_observeAll ctx s (ofParam param earlier)
      have wfAfter : (s.observeAll ctx (ofParam param (earlier ++ [last]))).value.WellFormed :=
        observeAll_wellFormed wfState (ofParam_sound wfTypes)
      have grows : (s.observeAll ctx (ofParam param earlier)).value.errors.length ≤
          (s.observeAll ctx (ofParam param (earlier ++ [last]))).value.errors.length := by
        rw [ofParam_snoc, observeAll_snoc]
        exact length_errors_observe _ _
      rcases observeAll_moves ctx declared earlier last with ⟨more, _⟩ | ⟨next, bound, moves⟩
      · omega
      · have wfNext := binding_wellFormed wfAfter bound
        intro ty member
        refine ⟨next, bound, ?_⟩
        rcases List.mem_append.mp member with seen | here
        · obtain ⟨old, known, fitting⟩ := ih wfEarlier (by omega) ty seen
          rw [known] at moves
          exact moves.fitting_earlier wf (wfEarlier ty seen) wfNext fitting
        · cases List.mem_singleton.mp here
          exact moves.fitting_observed wf (wfLast _ (.head _)) wfNext

/-- The observations of a parameter are all accepted by its binding in the end, if there was no
conflict, and each binding is accepted by the next. -/
theorem observeAll_fits {observed : List Ty} (wfTypes : ∀ ty ∈ observed, ty.WellFormed) :
    (∀ earlier ty later, observed = earlier ++ ty :: later →
      ∀ bound, (s.observeAll ctx (ofParam param earlier)).value.binding? param = some bound →
        ∃ next, (s.observeAll ctx (ofParam param (earlier ++ [ty]))).value.binding? param = some next ∧
          ctx.aliases.Fits bound next) ∧
    ((s.observeAll ctx (ofParam param observed)).value.errors = s.errors → ∀ ty ∈ observed,
      ∃ final, (s.observeAll ctx (ofParam param observed)).value.binding? param = some final ∧
        ctx.aliases.Fits ty final) := by
  constructor
  · intro earlier ty later _ bound known
    rcases observeAll_moves ctx declared earlier ty with ⟨_, kept⟩ | ⟨next, changed, moves⟩
    · exact ⟨bound, kept.trans known, (fitting_refl bound).fits⟩
    · rw [known] at moves
      exact ⟨next, changed, moves.fitting_bound.fits⟩
  · intro clean ty member
    obtain ⟨final, bound, fitting⟩ :=
      fitting_of_observed ctx wf wfState declared wfTypes (congrArg List.length clean) ty member
    exact ⟨final, bound, fitting.fits⟩

end Runs

/-- One parameter that nothing is known about. -/
def unbound : Inference := { params := [{ name := "T" }] }

/-- What a switch may say. -/
def reading : Ty := .unionOf [.string, .boolean]

theorem reading_fits :
    (unbound.observeAll {} (ofParam 0 [.literal (.text "on"), reading])).value.binding? 0 =
        some reading ∧
      ({} : AliasMap).Fits (.literal (.text "on")) reading := by
  have bound : (unbound.observeAll {} (ofParam 0 [.literal (.text "on"), reading])).value.binding? 0 =
      some reading := by rfl
  have clean : (unbound.observeAll {} (ofParam 0 [.literal (.text "on"), reading])).value.errors = [] := by
    rfl
  have wf : ({} : Context).aliases.WellFormed := by decide
  have wfState : unbound.WellFormed := by
    intro v member ty known
    cases List.mem_singleton.mp member
    cases known
  have wfTypes : ∀ ty ∈ [.literal (.text "on"), reading], ty.WellFormed := by decide +kernel
  refine ⟨bound, ?_⟩
  obtain ⟨final, found, fits⟩ :=
    (observeAll_fits {} wf wfState (by decide) wfTypes).2 clean (.literal (.text "on")) (.head _)
  rw [bound] at found
  cases found
  exact fits

end Inference

end StructuralTypes
