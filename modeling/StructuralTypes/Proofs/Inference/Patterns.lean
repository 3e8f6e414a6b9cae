import StructuralTypes.Inference
import StructuralTypes.Proofs.NormalForm.Aliases
import StructuralTypes.Proofs.Ty.Names

set_option autoImplicit false

namespace StructuralTypes

namespace Ty

variable {params : List String} {p : Ty} {σ τ : Substitution}

section Patterns

/-- A type parameter, or a node whose parts stand in fixed places. -/
def PatternNode (params : List String) : Ty → Prop
  | ref name => name ∈ params
  | object shape => (shape.properties.map (·.name)).Nodup
  | function signature => signature.typeParams.isEmpty = true
  | unionOf _ | intersectionOf _ | keyof _ => False
  | primitive _ | literal _ | array _ | tuple _ | record _ _ | anyFunction | predicate _ _ => True

instance : DecidablePred (PatternNode params)
  | ref name => inferInstanceAs (Decidable (name ∈ params))
  | object shape => inferInstanceAs (Decidable (shape.properties.map (·.name)).Nodup)
  | function signature => inferInstanceAs (Decidable (signature.typeParams.isEmpty = true))
  | unionOf _ | intersectionOf _ | keyof _ => inferInstanceAs (Decidable False)
  | primitive _ | literal _ | array _ | tuple _ | record _ _ | anyFunction | predicate _ _ =>
    inferInstanceAs (Decidable True)

/-- A type without unions, intersections and keys, in which the only names are type parameters. -/
def Pattern (params : List String) (p : Ty) : Prop := p.Throughout (PatternNode params)

instance : Decidable (p.Pattern params) := inferInstanceAs (Decidable (p.Throughout _))

/-- A pattern is a type parameter, or a node over patterns. -/
theorem Pattern.induction {motive : ∀ p : Ty, p.Pattern params → Prop}
    (param : ∀ (name : String) (pattern : (ref name).Pattern params), motive (ref name) pattern)
    (node : ∀ (p : Ty) (pattern : p.Pattern params), p.refName? = none →
      (∀ (child : Ty) (member : child ∈ p.children), motive child (pattern.child member)) →
      motive p pattern)
    {p : Ty} (pattern : p.Pattern params) : motive p pattern := by
  induction p using childrenInduction with
  | step p ih =>
      have parts (child : Ty) (member : child ∈ p.children) : motive child (pattern.child member) :=
        ih child member (pattern.child member)
      cases p with
      | ref name => exact param name pattern
      | _ => exact node _ pattern rfl parts

theorem Pattern.wellFormed (pattern : p.Pattern params) : p.WellFormed := by
  induction p using childrenInduction with
  | step p ih =>
      have node : p.NormalNode := by
        cases p with
        | object shape => exact pattern.here
        | unionOf | intersectionOf => exact pattern.here.elim
        | _ => trivial
      exact .intro node fun child member => ih child member (pattern.child member)

/-- A node with other parts in the same places. -/
def mapParts (f : Ty → Ty) : Ty → Ty
  | array element => array (f element)
  | tuple elements => tuple (elements.map f)
  | object ⟨properties, index, className, fresh⟩ =>
    object ⟨properties.map fun q => { q with ty := f q.ty },
      index.map fun i => ⟨f i.key, f i.value⟩, className, fresh⟩
  | record key value => record (f key) (f value)
  | function ⟨typeParams, params, result⟩ => function ⟨typeParams, params.map f, f result⟩
  | predicate parameter guard => predicate parameter (f guard)
  | ty => ty

variable {f g : Ty → Ty}

theorem children_mapParts (node : p.PatternNode params) :
    (p.mapParts f).children = p.children.map f := by
  cases p with
  | object shape =>
      obtain ⟨properties, index, className, fresh⟩ := shape
      cases index <;> simp [mapParts, children, Shape.parts]
  | function signature =>
      obtain ⟨typeParams, params, result⟩ := signature
      have plain : typeParams = [] := List.isEmpty_iff.mp node
      simp [mapParts, children, Signature.parts, plain]
  | unionOf | intersectionOf | keyof => exact node.elim
  | _ => rfl

theorem refName?_mapParts (placed : p.refName? = none) : (p.mapParts f).refName? = none := by
  cases p with
  | ref name => cases placed
  | _ => rfl

theorem mapParts_congr (equal : ∀ child ∈ p.children, f child = g child) :
    p.mapParts f = p.mapParts g := by
  cases p with
  | array element => rw [mapParts, mapParts, equal element (.head _)]
  | tuple elements =>
      have each : elements.map f = elements.map g := List.map_congr_left equal
      rw [mapParts, mapParts, each]
  | object shape =>
      obtain ⟨properties, index, className, fresh⟩ := shape
      have slots : properties.map (fun q => { q with ty := f q.ty }) =
          properties.map fun q => { q with ty := g q.ty } :=
        List.map_congr_left fun q member => by rw [equal q.ty (property_mem_children member)]
      have signature : index.map (fun i => (⟨f i.key, f i.value⟩ : IndexSignature Ty)) =
          index.map fun i => ⟨g i.key, g i.value⟩ := by
        refine Option.map_congr fun i found => ?_
        rw [equal i.key (indexKey_mem_children found),
          equal i.value (indexValue_mem_children found)]
      rw [mapParts, mapParts, slots, signature]
  | record key value =>
      rw [mapParts, mapParts, equal key (.head _), equal value (.tail _ (.head _))]
  | function signature =>
      have params : signature.params.map f = signature.params.map g :=
        List.map_congr_left fun param member => equal param (param_mem_children member)
      rw [mapParts, mapParts, params, equal _ (result_mem_children signature)]
  | predicate parameter guard => rw [mapParts, mapParts, equal guard (.head _)]
  | _ => rfl

theorem mapParts_id (p : Ty) : p.mapParts id = p := by
  cases p <;> simp [mapParts]

theorem replace_eq_mapParts (node : p.PatternNode params) (placed : p.refName? = none) :
    p.replace σ = p.mapParts (replace σ) := by
  cases p with
  | tuple elements => rw [replace, replaceAll_eq_map, mapParts]
  | object shape => rw [replace, replaceProperties_eq_map, replaceIndex_eq_map, mapParts]
  | function signature =>
      obtain ⟨typeParams, params, result⟩ := signature
      have plain : typeParams = [] := List.isEmpty_iff.mp node
      rw [replace, replaceAll_eq_map, mapParts, plain, replaceTypeParams]
  | ref name => cases placed
  | unionOf | intersectionOf | keyof => exact node.elim
  | _ => rfl

end Patterns

section Names

/-- The names in a pattern are those in its parts, from left to right. -/
theorem freeNames_eq_flatMap (node : p.PatternNode params) (placed : p.refName? = none) :
    p.freeNames [] = p.children.flatMap (freeNames []) := by
  have unbound : p.binders = [] := by
    cases p with
    | function signature => rw [binders, List.isEmpty_iff.mp node, List.map_nil]
    | _ => rfl
  rw [freeNames_of_parts placed, unbound, List.nil_append]

/-- Every name in a pattern is a type parameter. -/
theorem Pattern.mem_params (pattern : p.Pattern params) {name : String}
    (occurs : name ∈ p.freeNames []) : name ∈ params := by
  induction pattern using Pattern.induction with
  | param own pattern =>
      cases List.mem_singleton.mp occurs
      exact pattern.here
  | node p pattern placed ih =>
      rw [freeNames_eq_flatMap pattern.here placed] at occurs
      obtain ⟨child, member, inside⟩ := List.mem_flatMap.mp occurs
      exact ih child member inside

/-- An instance of a pattern depends on the names in the pattern only. -/
theorem Pattern.replace_congr (pattern : p.Pattern params)
    (agree : ∀ name ∈ p.freeNames [], (ref name).replace σ = (ref name).replace τ) :
    p.replace σ = p.replace τ := by
  induction pattern using Pattern.induction with
  | param name pattern => exact agree name (.head _)
  | node p pattern placed ih =>
      rw [replace_eq_mapParts pattern.here placed, replace_eq_mapParts pattern.here placed]
      rw [freeNames_eq_flatMap pattern.here placed] at agree
      refine mapParts_congr fun child member => ih child member fun name inside => ?_
      exact agree name (List.mem_flatMap.mpr ⟨child, member, inside⟩)

/-- Nothing happens to a pattern when nothing is put in. -/
theorem Pattern.substitute_eq_replace (pattern : p.Pattern params) :
    p.substitute σ = p.replace σ := by
  rw [substitute]
  split
  case isFalse => rfl
  case isTrue empty =>
    induction pattern using Pattern.induction with
    | param name pattern =>
        rw [replace, Substitution.get?, List.isEmpty_iff.mp empty]
        rfl
    | node p pattern placed ih =>
        rw [replace_eq_mapParts pattern.here placed]
        conv_lhs => rw [← mapParts_id p]
        exact mapParts_congr ih

end Names

end Ty

namespace Inference

variable {ctx : Context} {params : List String} {p : Ty} {σ : Substitution}

section Parts

theorem zip_map_self {α β γ : Type} (f : α → β) (g : α × β → γ) (as : List α) :
    (as.zip (as.map f)).map g = as.map fun a => g (a, f a) := by
  induction as with
  | nil => rfl
  | cons a as ih => rw [List.map_cons, List.zip_cons_cons, List.map_cons, List.map_cons, ih]

/-- Properties with distinct names meet their own images. -/
theorem propertyMatches_map {properties : List (Property Ty)}
    (names : (properties.map (·.name)).Nodup) (f : Ty → Ty) (arg : Shape Ty)
    (image : arg.properties = properties.map fun q => { q with ty := f q.ty }) :
    properties.filterMap (propertyMatch? arg) = properties.map fun q => ⟨q.ty, f q.ty⟩ := by
  have distinct : (arg.properties.map (·.name)).Nodup := by
    rw [image, List.map_map]
    exact names
  rw [← List.filterMap_eq_map]
  refine List.filterMap_congr fun q member => ?_
  have listed : { q with ty := f q.ty } ∈ arg.properties := by
    rw [image]
    exact List.mem_map_of_mem member
  have found : arg.property? q.name = some { q with ty := f q.ty } :=
    findProperty?_of_mem distinct listed
  rw [propertyMatch?, found]
  rfl

/-- The parts of a pattern node meet the parts that stand in their places. -/
theorem parts_mapParts (node : p.PatternNode params) (placed : p.refName? = none) (f : Ty → Ty) :
    parts ctx params p (p.mapParts f) = pure (p.children.map fun child => ⟨child, f child⟩) := by
  cases p with
  | tuple elements => exact congrArg pure (zip_map_self f _ elements)
  | object shape =>
      obtain ⟨properties, index, className, fresh⟩ := shape
      let arg : Shape Ty := ⟨properties.map fun q => { q with ty := f q.ty },
        index.map fun i => ⟨f i.key, f i.value⟩, className, fresh⟩
      have met : shapeMatches ⟨properties, index, className, fresh⟩ arg =
          (Ty.object ⟨properties, index, className, fresh⟩).children.map fun c => ⟨c, f c⟩ := by
        rw [shapeMatches, propertyMatches_map node f arg rfl, Ty.children, Shape.parts,
          List.map_append, List.map_map]
        cases index <;> rfl
      exact congrArg pure met
  | function signature =>
      obtain ⟨typeParams, params, result⟩ := signature
      have plain : typeParams = [] := List.isEmpty_iff.mp node
      have met : signatureMatches ⟨typeParams, params, result⟩
            ⟨typeParams, params.map f, f result⟩ =
          (Ty.function ⟨typeParams, params, result⟩).children.map fun c => ⟨c, f c⟩ := by
        rw [signatureMatches, zip_map_self, plain, Ty.children, Signature.parts, List.map_append]
        rfl
      exact congrArg pure met
  | ref name => cases placed
  | unionOf | intersectionOf | keyof => exact node.elim
  | _ => rfl

end Parts

section Walk

variable {α β : Type}

/-- Whatever names are being expanded, the walk gives a certain result and comes to no limit. -/
def Gives (x : MatchM α) (a : α) : Prop :=
  ∀ expanding, (x.run expanding).run = pure (some (a, expanding))

theorem Gives.bind {x : MatchM α} {f : α → MatchM β} {a : α} {b : β} (first : Gives x a)
    (next : Gives (f a) b) : Gives (x >>= f) b := by
  intro expanding
  have unfolded : ((x >>= f).run expanding).run =
      ((x.run expanding >>= fun r => (f r.1).run r.2).run) := rfl
  rw [unfolded, OptionT.run_bind, first expanding]
  exact next expanding

theorem observeEach_gives {observe : Match → MatchM (List Observation)}
    {found : Ty → List Observation}
    {f : Ty → Match} {tys : List Ty} (each : ∀ ty ∈ tys, Gives (observe (f ty)) (found ty)) :
    Gives (observeEach observe (tys.map f)) (tys.flatMap found) := by
  induction tys with
  | nil => exact fun expanding => rfl
  | cons ty tys ih =>
      rw [List.map_cons, List.flatMap_cons, observeEach]
      refine (each ty (.head _)).bind ?_
      refine (ih fun other later => each other (.tail _ later)).bind ?_
      exact fun expanding => rfl

end Walk

section Instances

/-- What an instance of a pattern says wherever the pattern is a type parameter. -/
def sighting (params : List String) (σ : Substitution) (name : String) : Observation :=
  ⟨params.idxOf name, (Ty.ref name).replace σ⟩

theorem observeWithin_placed {arg : Ty} (placed : p.refName? = none) (steps : Nat) :
    observeWithin ctx params (steps + 1) ⟨p, arg⟩ = (do
      let ms ← liftM (parts ctx params p (ctx.aliases.resolve arg))
      observeEach (observeWithin ctx params steps) ms) := by
  cases p with
  | ref name => cases placed
  | _ => rfl

theorem Gives.parts {ms : List Match} :
    Gives (liftM (pure ms : Limited (List Match)) : MatchM (List Match)) ms := fun _ => rfl

/-- The walk over a pattern and an instance of it goes through all of the pattern. -/
theorem observeWithin_instance (pattern : p.Pattern params) {steps : Nat} (deep : p.size < steps) :
    Gives (observeWithin ctx params steps ⟨p, p.replace σ⟩)
      ((p.freeNames []).map (sighting params σ)) := by
  induction pattern using Ty.Pattern.induction generalizing steps with
  | param name pattern =>
      obtain ⟨steps, rfl⟩ := Nat.exists_eq_add_one_of_ne_zero (Nat.ne_zero_of_lt deep)
      obtain ⟨i, found⟩ := Option.isSome_iff_exists.mp (List.isSome_idxOf?.mpr pattern.here)
      have position : params.idxOf name = i := by rw [List.idxOf_eq_getD_idxOf?, found]; rfl
      rw [observeWithin]
      dsimp only
      rw [found]
      intro expanding
      rw [← position]
      rfl
  | node p pattern placed ih =>
      obtain ⟨steps, rfl⟩ := Nat.exists_eq_add_one_of_ne_zero (Nat.ne_zero_of_lt deep)
      rw [observeWithin_placed placed, Ty.replace_eq_mapParts pattern.here placed,
        AliasMap.resolve_of_refName?_eq_none (Ty.refName?_mapParts placed),
        parts_mapParts pattern.here placed, Ty.freeNames_eq_flatMap pattern.here placed,
        List.map_flatMap]
      refine Gives.parts.bind (observeEach_gives fun child member => ih child member ?_)
      have smaller := Ty.size_child_lt member
      omega

/-- There are more steps than a pattern has nodes. -/
theorem size_lt_observeSteps (m : Match) : m.pattern.size < observeSteps ctx m := by
  rw [observeSteps]
  generalize ctx.aliases.size * Nat.pow 2 _ = more
  have enough : m.pattern.size + m.arg.size + ctx.aliases.bodySize + 2 ≤
      (more + 1) * (m.pattern.size + m.arg.size + ctx.aliases.bodySize + 2) :=
    Nat.le_mul_of_pos_left _ (Nat.succ_pos more)
  omega

/-- An instance says, for each place of a type parameter, what was put in there. -/
theorem observations_instance (pattern : p.Pattern params) :
    observations ctx params ⟨p, p.replace σ⟩ = pure ((p.freeNames []).map (sighting params σ)) := by
  have walk : Gives
      (observeWithin ctx params (observeSteps ctx ⟨p, p.replace σ⟩) ⟨p, p.replace σ⟩) _ :=
    observeWithin_instance pattern (size_lt_observeSteps ⟨p, p.replace σ⟩)
  rw [observations, walk []]
  rfl

end Instances

section State

/-- The state in which the given names were seen as what a substitution has for them. -/
def seen (params : List String) (σ : Substitution) (names : List String) : Inference where
  params := params.map fun name =>
    ⟨name, if name ∈ names then some ((Ty.ref name).replace σ) else none⟩

theorem names_seen (names : List String) : (seen params σ names).names = params := by
  rw [Inference.names, seen, List.map_map]
  exact List.map_id params

theorem foldl_fresh (s : Inference) (typeParams : List (TypeParam Ty)) :
    typeParams.foldl (fun s param => s.fresh param.name) s =
      { s with params := s.params ++ typeParams.map fun param => ⟨param.name, none⟩ } := by
  induction typeParams generalizing s with
  | nil => simp
  | cons param typeParams ih =>
      rw [List.foldl_cons, ih, fresh]
      simp

theorem start_eq_seen (params : List String) (σ : Substitution) :
    (params.map fun name => (⟨name, none⟩ : TypeParam Ty)).foldl (fun s param => s.fresh param.name)
      ({} : Inference) = seen params σ [] := by
  rw [foldl_fresh, seen]
  simp

theorem judge_self (ty : Ty) : judge ctx (some ty) ty = pure .keep := by
  unfold judge
  exact if_pos (Ty.same_self ty)

/-- A name that was seen before adds nothing. -/
theorem seen_again {names : List String} {name : String} (known : name ∈ names) :
    seen params σ (names ++ [name]) = seen params σ names := by
  have members (other : String) : other ∈ names ++ [name] ↔ other ∈ names := by
    simp only [List.mem_append, List.mem_singleton, or_iff_left_iff_imp]
    rintro rfl
    exact known
  simp only [seen, members]

variable (distinct : params.Nodup)

include distinct

/-- A name that is seen for the first time is bound where it stands. -/
theorem set_seen {names : List String} {name : String} (declared : name ∈ params) :
    (seen params σ names).params.set (params.idxOf name) ⟨name, some ((Ty.ref name).replace σ)⟩ =
      (seen params σ (names ++ [name])).params := by
  have within : params.idxOf name < params.length := List.idxOf_lt_length_iff.mpr declared
  refine List.ext_getElem? fun i => ?_
  rw [List.getElem?_set]
  split
  case isTrue here =>
    subst here
    simp [seen, within]
  case isFalse elsewhere =>
    simp only [seen, List.getElem?_map]
    refine Option.map_congr fun other found => ?_
    have different : other ≠ name := by
      rintro rfl
      obtain ⟨bound, rfl⟩ := List.getElem?_eq_some_iff.mp found
      exact elsewhere (distinct.idxOf_getElem i bound)
    simp [different]

/-- A parameter that is seen again is seen as the same type. -/
theorem observe_sighting {names : List String} {name : String} (declared : name ∈ params) :
    (seen params σ names).observe ctx (sighting params σ name) =
      pure (seen params σ (names ++ [name])) := by
  have slot : (seen params σ names).params[params.idxOf name]? =
      some ⟨name, if name ∈ names then some ((Ty.ref name).replace σ) else none⟩ := by
    rw [seen, List.getElem?_map, List.getElem?_idxOf declared]
    rfl
  rw [observe, sighting]
  dsimp only
  rw [slot]
  dsimp only
  by_cases known : name ∈ names
  · rw [if_pos known, judge_self, seen_again known]
    rfl
  · rw [if_neg known]
    show pure _ = pure _
    rw [set_seen distinct declared]
    rfl

theorem observeAll_sightings {names more : List String} (declared : ∀ name ∈ more, name ∈ params) :
    (seen params σ names).observeAll ctx (more.map (sighting params σ)) =
      pure (seen params σ (names ++ more)) := by
  induction more generalizing names with
  | nil => rw [List.append_nil]; rfl
  | cons name more ih =>
      rw [List.map_cons, observeAll, observe_sighting distinct (declared name (.head _))]
      have rest := @ih (names ++ [name]) fun other later => declared other (.tail _ later)
      rw [List.append_assoc] at rest
      exact rest

theorem inferAll_instances {names : List String} {patterns : List Ty}
    (each : ∀ p ∈ patterns, p.Pattern params) :
    (seen params σ names).inferAll ctx (patterns.zip (patterns.map (Ty.replace σ))) =
      pure (seen params σ (names ++ patterns.flatMap (Ty.freeNames []))) := by
  induction patterns generalizing names with
  | nil => rw [List.flatMap_nil, List.append_nil]; rfl
  | cons p patterns ih =>
      have first : (seen params σ names).infer ctx p (p.replace σ) =
          pure (seen params σ (names ++ p.freeNames [])) := by
        have pattern := each p (.head _)
        rw [infer, names_seen, observations_instance pattern]
        exact observeAll_sightings distinct fun name occurs => pattern.mem_params occurs
      rw [List.map_cons, List.zip_cons_cons, inferAll, first, List.flatMap_cons,
        ← List.append_assoc]
      exact ih fun other later => each other (.tail _ later)

end State

end Inference

namespace Substitution

variable {σ : Substitution}

theorem get?_insert (name other : String) (ty : Ty) :
    (σ.insert name ty).get? other = if other = name then some ty else σ.get? other := by
  rw [insert, get?, get?, List.find?_cons]
  by_cases same : name = other
  · simp [same]
  · have kept : (σ.bindings.filter fun b => b.1 != name).find? (fun b => b.1 == other) =
        σ.bindings.find? fun b => b.1 == other := by
      rw [List.find?_filter]
      congr 1
      funext b
      by_cases named : b.1 = other <;> simp [named, Ne.symm same]
    rw [beq_eq_false_iff_ne.mpr same, if_neg (Ne.symm same), kept]

theorem get?_foldl_insert (names : List String) (f : String → Ty) (name : String) :
    ((names.map fun n => (n, f n)).foldl (fun σ b => σ.insert b.1 b.2) σ).get? name =
      if name ∈ names then some (f name) else σ.get? name := by
  induction names generalizing σ with
  | nil => rfl
  | cons first rest ih =>
      rw [List.map_cons, List.foldl_cons, ih, get?_insert]
      by_cases later : name ∈ rest
      · simp [later]
      · by_cases here : name = first <;> simp [later, here]

theorem get?_ofList (names : List String) (f : String → Ty) (name : String) :
    (ofList (names.map fun n => (n, f n))).get? name =
      if name ∈ names then some (f name) else none :=
  get?_foldl_insert names f name

end Substitution

namespace InferenceRequest

variable {ctx : Context} {params : List String} {σ : Substitution} {patterns : List Ty}

theorem constraintErrors_unconstrained (ctx : Context) (params : List String) (τ : Substitution) :
    constraintErrors ctx τ (params.map fun name => ⟨name, none⟩) = pure [] := by
  induction params with
  | nil => rfl
  | cons name params ih => exact ih

/-- A call of a generic function with instances of its patterns. -/
def ofInstances (params : List String) (patterns : List Ty) (σ : Substitution) :
    InferenceRequest where
  typeParams := params.map fun name => ⟨name, none⟩
  patterns := patterns
  args := patterns.map fun p => p.substitute σ

/-- The bindings that are found again: those of the parameters that occur in a pattern. -/
def recovered (params : List String) (patterns : List Ty) (σ : Substitution) : Substitution :=
  .ofList (params.map fun name =>
    (name, if name ∈ patterns.flatMap (Ty.freeNames []) then (Ty.ref name).replace σ else .any))

theorem result_seen (names : List String) :
    (Inference.seen params σ names).result = ⟨.ofList (params.map fun name =>
      (name, if name ∈ names then (Ty.ref name).replace σ else .any)), []⟩ := by
  rw [Inference.result, Inference.seen, List.map_map]
  congr 3
  funext name
  by_cases occurs : name ∈ names <;> simp [occurs]

theorem run_ofInstances (distinct : params.Nodup) (each : ∀ p ∈ patterns, p.Pattern params) :
    (ofInstances params patterns σ).run ctx = pure ⟨recovered params patterns σ, []⟩ := by
  have args : patterns.map (fun p => p.substitute σ) = patterns.map (Ty.replace σ) :=
    List.map_congr_left fun p member => (each p member).substitute_eq_replace
  have inferred : (ofInstances params patterns σ).applyInference ctx =
      pure ⟨recovered params patterns σ, []⟩ := by
    rw [applyInference, ofInstances, args, Inference.start_eq_seen params σ,
      Inference.inferAll_instances distinct each]
    exact congrArg pure (result_seen (patterns.flatMap (Ty.freeNames [])))
  have satisfied := constraintErrors_unconstrained ctx params (recovered params patterns σ)
  have followed : (ofInstances params patterns σ).run ctx =
      ((ofInstances params patterns σ).applyInference ctx >>= fun result =>
        constraintErrors ctx result.substitution (params.map fun name => ⟨name, none⟩) >>=
          fun errors => pure { result with errors := result.errors ++ errors }) := rfl
  rw [followed, inferred, Limited.pure_bind, satisfied]
  rfl

end InferenceRequest

end StructuralTypes
