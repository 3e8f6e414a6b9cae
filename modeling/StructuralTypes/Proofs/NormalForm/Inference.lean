import StructuralTypes.Inference
import StructuralTypes.Proofs.NormalForm.Aliases

set_option autoImplicit false

namespace StructuralTypes

namespace Inference

variable {ctx : Context} {params : List String}

section Parts

variable {arg : Ty}

theorem propertyMatch?_wellFormed {shape : Shape Ty} (wf : (Ty.object shape).WellFormed)
    {slot : Property Ty} {m : Match} (found : propertyMatch? shape slot = some m) :
    m.arg.WellFormed := by
  rw [propertyMatch?] at found
  split at found
  case h_1 p named =>
    cases found
    exact wf.property (mem_names_of_findProperty? named).1
  case h_2 =>
    obtain ⟨index, declared, rfl⟩ := Option.map_eq_some_iff.mp found
    exact wf.indexValue declared

theorem indexMatches_wellFormed {shape : Shape Ty} (wf : (Ty.object shape).WellFormed)
    {pattern : Shape Ty} {index : IndexSignature Ty} :
    ∀ m ∈ indexMatches pattern shape index, m.arg.WellFormed := by
  intro m member
  rw [indexMatches] at member
  split at member
  case h_1 own declared =>
    rcases List.mem_cons.mp member with rfl | last
    · exact wf.indexKey declared
    · cases List.mem_singleton.mp last
      exact wf.indexValue declared
  case h_2 =>
    obtain ⟨p, unnamed, rfl⟩ := List.mem_map.mp member
    exact wf.property (List.mem_of_mem_filter unnamed)

theorem shapeMatches_wellFormed {shape : Shape Ty} (wf : (Ty.object shape).WellFormed)
    {pattern : Shape Ty} : ∀ m ∈ shapeMatches pattern shape, m.arg.WellFormed := by
  intro m member
  rcases List.mem_append.mp member with named | indexed
  · obtain ⟨slot, declared, found⟩ := List.mem_filterMap.mp named
    exact propertyMatch?_wellFormed wf found
  · obtain ⟨index, declared, found⟩ := List.mem_flatMap.mp indexed
    exact indexMatches_wellFormed wf m found

theorem signatureMatches_wellFormed {signature : Signature Ty}
    (wf : (Ty.function signature).WellFormed) {pattern : Signature Ty} :
    ∀ m ∈ signatureMatches pattern signature, m.arg.WellFormed := by
  intro m member
  rcases List.mem_append.mp member with param | last
  · obtain ⟨⟨p, a⟩, paired, rfl⟩ := List.mem_map.mp param
    exact wf.child (Ty.param_mem_children (List.of_mem_zip paired).2)
  · cases List.mem_singleton.mp last
    exact wf.child (Ty.result_mem_children signature)

/-- The one place where an argument is rebuilt. -/
theorem unionMatches_wellFormed (wf : arg.WellFormed) {members : List Ty} :
    ∀ m ∈ (unionMatches ctx params members arg).value, m.arg.WellFormed := by
  intro m member
  rw [unionMatches] at member
  split at member
  case h_1 openMember _ =>
    simp only [Limited.value_bind, Limited.value_filter, Limited.value_pure] at member
    split at member
    · cases member
    · cases List.mem_singleton.mp member
      apply Ty.union_wellFormed
      intro a rest
      exact wf.unionMembers (List.mem_of_mem_filter rest)
  case h_2 => cases member

theorem parts_wellFormed (wf : arg.WellFormed) (pattern : Ty) :
    ∀ m ∈ (parts ctx params pattern arg).value, m.arg.WellFormed := by
  intro m member
  unfold parts at member
  split at member
  case h_1 =>
    cases List.mem_singleton.mp member
    exact wf.child (.head _)
  case h_2 =>
    obtain ⟨a, listed, rfl⟩ := List.mem_map.mp member
    exact wf.child listed
  case h_3 =>
    obtain ⟨⟨p, a⟩, paired, rfl⟩ := List.mem_map.mp member
    exact wf.child (List.of_mem_zip paired).2
  case h_4 => exact signatureMatches_wellFormed wf m member
  case h_5 => exact unionMatches_wellFormed wf m member
  case h_6 =>
    obtain ⟨p, listed, rfl⟩ := List.mem_map.mp member
    exact wf
  case h_7 =>
    cases List.mem_singleton.mp member
    exact wf.child (.head _)
  case h_8 =>
    split at member
    case h_1 p a _ shaped => exact shapeMatches_wellFormed (wf.asShape shaped) m member
    case h_2 => cases member

end Parts

section Walk

variable {α β : Type} {holds : α → Prop} {post : β → Prop}

/-- Whatever names are being expanded, a result of the walk satisfies a predicate. -/
def Yields (x : MatchM α) (holds : α → Prop) : Prop :=
  ∀ open? a open', ((x.run open?).run).value = some (a, open') → holds a

theorem Yields.pure {a : α} (known : holds a) : Yields (Pure.pure a) holds := by
  intro before b after result
  cases result
  exact known

theorem Yields.bind {x : MatchM α} {f : α → MatchM β} (first : Yields x holds)
    (next : ∀ a, holds a → Yields (f a) post) : Yields (x >>= f) post := by
  intro before b after result
  have unfolded : (((x.run before) >>= fun p => (f p.1).run p.2).run).value = some (b, after) :=
    result
  rw [OptionT.run_bind, Option.elimM, Limited.value_bind] at unfolded
  cases found : ((x.run before).run).value with
  | none =>
      rw [found] at unfolded
      cases unfolded
  | some p =>
      rw [found] at unfolded
      exact next p.1 (first before p.1 p.2 found) p.2 b after unfolded

theorem Yields.any (x : MatchM α) : Yields x fun _ => True :=
  fun _ _ _ _ => trivial

theorem Yields.lift {x : Limited α} (known : holds x.value) :
    Yields (liftM x : MatchM α) holds := by
  intro before a after result
  cases result
  exact known

theorem Yields.failure : Yields (failure : MatchM α) holds := by
  intro before a after result
  cases result

end Walk

section Observations

/-- Every observation is of a well-formed type. -/
def Sound (found : List Observation) : Prop := ∀ o ∈ found, o.ty.WellFormed

theorem Sound.nil : Sound [] := by
  intro o member
  cases member

theorem Sound.append {early late : List Observation} (first : Sound early) (second : Sound late) :
    Sound (early ++ late) := by
  intro o member
  rcases List.mem_append.mp member with before | after
  · exact first o before
  · exact second o after

theorem observeEach_sound {observe : Match → MatchM (List Observation)} {ms : List Match}
    (each : ∀ m ∈ ms, Yields (observe m) Sound) : Yields (observeEach observe ms) Sound := by
  induction ms with
  | nil => exact Yields.pure Sound.nil
  | cons m ms ih =>
      rw [observeEach]
      refine (each m (.head _)).bind fun first soundFirst => ?_
      refine (ih fun other later => each other (.tail _ later)).bind fun rest soundRest => ?_
      exact Yields.pure (soundFirst.append soundRest)

/-- The argument of a match stays what it is, or a part of what it resolves to. -/
theorem observeWithin_sound (wf : ctx.aliases.WellFormed) (steps : Nat) {m : Match}
    (wfArg : m.arg.WellFormed) : Yields (observeWithin ctx params steps m) Sound := by
  induction steps generalizing m with
  | zero => exact Yields.failure
  | succ steps ih =>
      have nothing : Yields (pure [] : MatchM (List Observation)) Sound := Yields.pure Sound.nil
      rw [observeWithin]
      split
      case h_1 name _ =>
        split
        case h_1 i _ =>
          have seen : Sound [⟨i, m.arg⟩] := by
            intro o member
            cases List.mem_singleton.mp member
            exact wfArg
          exact Yields.pure seen
        case h_2 =>
          dsimp only
          split
          · exact nothing
          · refine (Yields.any _).bind fun expanding _ => ?_
            split
            · exact nothing
            · have inside : Yields (observeWithin ctx params steps
                  ⟨ctx.aliases.resolve m.pattern, m.arg⟩) Sound := ih wfArg
              refine (Yields.any _).bind fun _ _ => inside.bind fun found sound => ?_
              exact (Yields.any _).bind fun _ _ => Yields.pure sound
      case h_2 pattern _ =>
        have wfResolved := AliasMap.resolve_wellFormed wf wfArg
        have wfParts : Yields (liftM (parts ctx params m.pattern (ctx.aliases.resolve m.arg)))
            (fun ms => ∀ part ∈ ms, part.arg.WellFormed) :=
          Yields.lift (parts_wellFormed wfResolved _)
        refine wfParts.bind fun ms wfEach => ?_
        exact observeEach_sound fun part listed => ih (wfEach part listed)

theorem observations_sound (wf : ctx.aliases.WellFormed) {m : Match} (wfArg : m.arg.WellFormed) :
    Sound (observations ctx params m).value := by
  have walk : Yields (observeWithin ctx params (observeSteps ctx m) m) Sound :=
    observeWithin_sound wf _ wfArg
  rw [observations, Limited.value_bind]
  split
  case h_1 found after result => exact walk [] found after result
  case h_2 => exact Sound.nil

end Observations

section State

/-- Every parameter that is bound is bound to a well-formed type. -/
def WellFormed (s : Inference) : Prop := ∀ v ∈ s.params, ∀ ty, v.binding = some ty → ty.WellFormed

theorem judge_wellFormed {bound? : Option Ty} {observed ty : Ty} (wf : observed.WellFormed)
    (verdict : (judge ctx bound? observed).value = .bind ty) : ty.WellFormed := by
  cases bound? with
  | none =>
      cases verdict
      exact wf
  | some bound =>
      unfold judge at verdict
      dsimp only at verdict
      split at verdict
      · cases verdict
      · split at verdict
        case h_1 =>
          rw [Limited.value_pure] at verdict
          split at verdict
          · cases verdict
            exact .primitive _
          · cases verdict
        case h_2 =>
          rw [Limited.value_bind] at verdict
          split at verdict
          · cases verdict
          · split at verdict
            · rw [Limited.value_bind] at verdict
              split at verdict
              · cases verdict
                exact wf
              · cases verdict
            · cases verdict

theorem observe_wellFormed {s : Inference} (wf : s.WellFormed) {o : Observation}
    (wfTy : o.ty.WellFormed) : (s.observe ctx o).value.WellFormed := by
  unfold observe
  split
  case h_1 => exact wf
  case h_2 v found =>
    rw [Limited.value_bind]
    split
    case h_1 => exact wf
    case h_2 ty verdict =>
      intro u member bound known
      rcases List.mem_or_eq_of_mem_set member with old | rfl
      · exact wf u old bound known
      · cases known
        exact judge_wellFormed wfTy verdict
    case h_3 => exact wf

theorem observeAll_wellFormed {s : Inference} (wf : s.WellFormed) {found : List Observation}
    (sound : Sound found) : (s.observeAll ctx found).value.WellFormed := by
  induction found generalizing s with
  | nil => exact wf
  | cons o os ih =>
      rw [observeAll, Limited.value_bind]
      have step : (s.observe ctx o).value.WellFormed := observe_wellFormed wf (sound o (.head _))
      exact ih step fun other later => sound other (.tail _ later)

theorem inferAll_wellFormed (wfAliases : ctx.aliases.WellFormed) {s : Inference} (wf : s.WellFormed)
    {pairs : List (Ty × Ty)} (wfArgs : ∀ pair ∈ pairs, pair.2.WellFormed) :
    (s.inferAll ctx pairs).value.WellFormed := by
  induction pairs generalizing s with
  | nil => exact wf
  | cons pair rest ih =>
      rw [inferAll, Limited.value_bind]
      have sound : Sound (observations ctx s.names ⟨pair.1, pair.2⟩).value :=
        observations_sound wfAliases (wfArgs pair (.head _))
      have step : (s.infer ctx pair.1 pair.2).value.WellFormed := observeAll_wellFormed wf sound
      exact ih step fun other later => wfArgs other (.tail _ later)

theorem result_wellFormed {s : Inference} (wf : s.WellFormed) :
    s.result.substitution.WellFormed := by
  apply Substitution.WellFormed.ofList
  intro binding member
  obtain ⟨v, listed, rfl⟩ := List.mem_map.mp member
  show (v.binding.getD .any).WellFormed
  cases bound : v.binding with
  | none => exact .primitive .any
  | some ty => exact wf v listed ty bound

/-- Parameters start unbound. -/
theorem foldl_fresh_wellFormed {s : Inference} (wf : s.WellFormed) (params : List (TypeParam Ty)) :
    (params.foldl (fun s param => s.fresh param.name) s).WellFormed := by
  induction params generalizing s with
  | nil => exact wf
  | cons param params ih =>
      apply ih
      intro v member ty bound
      rcases List.mem_append.mp member with old | new
      · exact wf v old ty bound
      · cases List.mem_singleton.mp new
        cases bound

end State

end Inference

theorem InferenceRequest.run_wellFormed {ctx : Context} (wf : ctx.aliases.WellFormed)
    {request : InferenceRequest} (wfArgs : ∀ arg ∈ request.args, arg.WellFormed)
    (wfExplicit : ∀ explicit, request.explicit = some explicit → ∀ arg ∈ explicit, arg.WellFormed) :
    (request.run ctx).value.substitution.WellFormed := by
  rw [run]
  cases written : request.explicit with
  | some explicit => exact .ofArgs (wfExplicit explicit written)
  | none =>
      have start : ({} : Inference).WellFormed := by
        intro v member
        cases member
      apply Inference.result_wellFormed
      apply Inference.inferAll_wellFormed wf (Inference.foldl_fresh_wellFormed start _)
      intro pair paired
      exact wfArgs pair.2 (List.of_mem_zip paired).2

end StructuralTypes
