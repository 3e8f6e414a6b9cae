import StructuralTypes.Alias
import StructuralTypes.Proofs.Merge.Meet
import StructuralTypes.Proofs.Ty.Occurrences

set_option autoImplicit false

namespace StructuralTypes

namespace SearchM

variable (search : ReferenceSearch)

theorem after_bind (visits others : SearchM Unit) :
    SearchM.after (visits >>= fun _ => others) search = others.after (visits.after search) := rfl

theorem after_get (visits : ReferenceSearch → SearchM Unit) :
    SearchM.after (get >>= visits) search = (visits search).after search := rfl

theorem after_modify (f : ReferenceSearch → ReferenceSearch) :
    SearchM.after (modify f) search = f search := rfl

end SearchM

namespace ReferenceSearch

variable (aliases : AliasMap) (search : ReferenceSearch) (names others : List String)

/-- The search after it met names that are not in scope. -/
def meet : ReferenceSearch :=
  { search with missing := names.foldl aliases.addMissing search.missing }

@[simp] theorem bound_meet : (search.meet aliases names).bound = search.bound := rfl

theorem meet_meet :
    (search.meet aliases names).meet aliases others = search.meet aliases (names ++ others) := by
  rw [meet, meet, meet, List.foldl_append]

end ReferenceSearch

namespace AliasMap

variable {aliases : AliasMap}

section Parts

theorem visitAll_eq_forM (tys : List Ty) : aliases.visitAll tys = tys.forM aliases.visit := by
  induction tys with
  | nil => rfl
  | cons ty tys ih =>
      rw [visitAll, ih]
      rfl

theorem visitProperties_eq_forM (properties : List (Property Ty)) :
    aliases.visitProperties properties = (properties.map (·.ty)).forM aliases.visit := by
  induction properties with
  | nil => rfl
  | cons property properties ih =>
      rw [visitProperties, ih]
      rfl

theorem visitConstraints_eq_forM (params : List (TypeParam Ty)) :
    aliases.visitConstraints params = (params.filterMap (·.constraint)).forM aliases.visit := by
  induction params with
  | nil => rfl
  | cons param params ih =>
      obtain ⟨own, _ | constraint⟩ := param <;> rw [visitConstraints, ih] <;> rfl

theorem visit_function (signature : Signature Ty) :
    aliases.visit (.function signature) =
      visitBinding (Ty.function signature).binders
        ((Ty.function signature).children.forM aliases.visit) := by
  obtain ⟨typeParams, params, result⟩ := signature
  simp [visit, visitConstraints_eq_forM, visitAll_eq_forM, Ty.children, Ty.binders, Signature.parts]

/-- The parts of a type that binds nothing are visited from left to right. -/
theorem visit_of_parts {ty : Ty} (placed : ty.refName? = none)
    (plain : ∀ signature, ty ≠ .function signature) :
    aliases.visit ty = ty.children.forM aliases.visit := by
  cases ty with
  | ref name => cases placed
  | function signature => exact absurd rfl (plain signature)
  | object shape =>
      obtain ⟨properties, _ | index, className, fresh⟩ := shape <;>
        simp [visit, visitIndex, visitProperties_eq_forM, Ty.children, Shape.parts]
  | _ => simp [visit, visitAll_eq_forM, Ty.children]

end Parts

section Visits

theorem after_visit_ref (name : String) (search : ReferenceSearch) :
    (aliases.visit (.ref name)).after search =
      search.meet aliases ((Ty.ref name).freeNames search.bound) := by
  rw [visit, SearchM.after_modify, Ty.freeNames]
  split <;> rfl

theorem after_visit_all {tys : List Ty}
    (each : ∀ ty ∈ tys, ∀ search, (aliases.visit ty).after search =
      search.meet aliases (ty.freeNames search.bound)) (search : ReferenceSearch) :
    SearchM.after (tys.forM aliases.visit) search =
      search.meet aliases (tys.flatMap (Ty.freeNames search.bound)) := by
  induction tys generalizing search with
  | nil => rfl
  | cons ty tys ih =>
      have later := ih fun other member => each other (.tail _ member)
      change SearchM.after (aliases.visit ty >>= fun _ => tys.forM aliases.visit) search = _
      rw [SearchM.after_bind, each ty (.head _), later, ReferenceSearch.bound_meet,
        ReferenceSearch.meet_meet, List.flatMap_cons]

/-- Whatever is bound inside of the function, the stack is the old one behind it. -/
theorem after_visitBinding {names found : List String} {inner : SearchM Unit}
    {search : ReferenceSearch}
    (visited : inner.after { search with bound := search.bound ++ names } =
      ReferenceSearch.meet aliases { search with bound := search.bound ++ names } found) :
    (visitBinding names inner).after search = search.meet aliases found := by
  have cut : (search.bound ++ names).take search.bound.length = search.bound := List.take_left
  rw [visitBinding, SearchM.after_get, SearchM.after_bind, SearchM.after_modify, SearchM.after_bind,
    visited, SearchM.after_modify]
  simp only [ReferenceSearch.meet, cut]

/-- A visit adds the free names of the type and leaves the scope as it was. -/
theorem after_visit (ty : Ty) (search : ReferenceSearch) :
    (aliases.visit ty).after search = search.meet aliases (ty.freeNames search.bound) := by
  induction ty using Ty.childrenInduction generalizing search with
  | step ty ih =>
      have parts (placed : ty.refName? = none) (plain : ∀ signature, ty ≠ .function signature)
          (unbinding : ty.binders = []) :
          (aliases.visit ty).after search = search.meet aliases (ty.freeNames search.bound) := by
        rw [visit_of_parts placed plain, after_visit_all ih, Ty.freeNames_of_parts placed, unbinding,
          List.nil_append]
      cases ty with
      | ref name => exact after_visit_ref name search
      | function signature =>
          have reordered : (Ty.function signature).freeNames search.bound =
              (Ty.function signature).children.flatMap
                (Ty.freeNames (search.bound ++ (Ty.function signature).binders)) := by
            rw [Ty.freeNames_of_parts rfl]
            refine List.flatMap_congr fun child _ => Ty.freeNames_congr fun name => ?_
            rw [List.mem_append, List.mem_append, or_comm]
          rw [visit_function, reordered]
          exact after_visitBinding (after_visit_all ih _)
      | _ => exact parts rfl nofun rfl

end Visits

section Collection

/-- Some `a` stands in front of every `b`. -/
def StandsBefore (names : List String) (a b : String) : Prop :=
  ∃ before after, names = before ++ a :: after ∧ b ∉ before ∧ b ≠ a

theorem StandsBefore.snoc {names : List String} {a b : String} (before : StandsBefore names a b)
    (name : String) : StandsBefore (names ++ [name]) a b := by
  obtain ⟨earlier, later, rfl, new, different⟩ := before
  exact ⟨earlier, later ++ [name], by simp, new, different⟩

/-- What the missing names are when the given names were met. -/
structure Listing (aliases : AliasMap) (names missing : List String) : Prop where
  distinct : missing.Nodup
  mem_iff (name : String) : name ∈ missing ↔ name ∈ names ∧ aliases.contains name = false
  order : missing.Pairwise (StandsBefore names)

theorem Listing.addMissing {names missing : List String}
    (listing : Listing aliases names missing) (name : String) :
    Listing aliases (names ++ [name]) (aliases.addMissing missing name) := by
  have earlier := listing.order.imp fun before => before.snoc name
  by_cases known : aliases.contains name || missing.contains name
  · rw [AliasMap.addMissing, if_pos known]
    refine ⟨listing.distinct, fun other => ?_, earlier⟩
    rw [listing.mem_iff, List.mem_append, List.mem_singleton]
    constructor
    · exact fun ⟨met, undeclared⟩ => ⟨.inl met, undeclared⟩
    · rintro ⟨met | rfl, undeclared⟩
      · exact ⟨met, undeclared⟩
      · have listed : other ∈ missing := by simpa [undeclared] using known
        exact (listing.mem_iff other).mp listed
  · rw [AliasMap.addMissing, if_neg known]
    simp only [Bool.or_eq_true, not_or, List.contains_iff_mem] at known
    obtain ⟨declared, new⟩ := known
    have undeclared : aliases.contains name = false := Bool.eq_false_iff.mpr declared
    have unmet : name ∉ names := fun met => new ((listing.mem_iff name).mpr ⟨met, undeclared⟩)
    refine ⟨?_, fun other => ?_, ?_⟩
    · exact List.nodup_append.mpr ⟨listing.distinct, List.nodup_singleton name, by grind⟩
    · rw [List.mem_append, List.mem_append, listing.mem_iff]
      grind
    · refine List.pairwise_append.mpr ⟨earlier, List.pairwise_singleton _ _, ?_⟩
      intro other listed last isLast
      obtain rfl := List.mem_singleton.mp isLast
      obtain ⟨before, after, split⟩ := List.append_of_mem ((listing.mem_iff other).mp listed).1
      exact ⟨before, after ++ [last], by simp [split], fun inside => unmet (by simp [split, inside]),
        fun same => unmet (by simp [split, same])⟩

/-- Noting names one by one gives the same list as going through all of them at the end. -/
theorem foldl_addMissing (aliases : AliasMap) (names : List String) :
    names.foldl aliases.addMissing [] = aliases.undeclared names := by
  induction names using List.reverseRecOn with
  | nil => rfl
  | append_singleton names name ih =>
      rw [List.foldl_append, ih, undeclared, undeclared, List.filter_append]
      by_cases declared : aliases.contains name
      · simp [addMissing, declared]
      · have alone : [name].filter (fun name => !aliases.contains name) = [name] := by
          simp [declared]
        rw [alone, eraseDups_snoc]
        by_cases met : name ∈ names <;> simp [addMissing, declared, met]

theorem listing_undeclared (aliases : AliasMap) (names : List String) :
    Listing aliases names (aliases.undeclared names) := by
  rw [← foldl_addMissing]
  induction names using List.reverseRecOn with
  | nil => exact ⟨.nil, by simp, .nil⟩
  | append_singleton names name ih =>
      rw [List.foldl_append]
      exact ih.addMissing name

end Collection

/-- The search lists what a validation keeps of the free names. -/
theorem unresolvedReferences_eq_undeclared (aliases : AliasMap) (ty : Ty) :
    aliases.unresolvedReferences ty = aliases.undeclared (ty.freeNames []) := by
  rw [unresolvedReferences, after_visit, ← foldl_addMissing]
  rfl

/-- The search lists each name that is not declared and stands free somewhere in the type, also when
it stands bound elsewhere, once and in the order of the first free references. Behind each type the
names in scope are those in front of it. -/
theorem unresolvedReferences_exact (aliases : AliasMap) (ty : Ty) :
    (aliases.unresolvedReferences ty).Nodup ∧
    (∀ name, name ∈ aliases.unresolvedReferences ty ↔
      aliases.contains name = false ∧ ∃ path, ty.FreeAt name path) ∧
    (∀ name inside outside, ty.BoundAt name inside → ty.FreeAt name outside →
      aliases.contains name = false → name ∈ aliases.unresolvedReferences ty) ∧
    (aliases.unresolvedReferences ty).Pairwise (fun a b =>
      ∃ path, ty.FreeAt a path ∧ ∀ place, ty.FreeAt b place → path < place) ∧
    ∀ search : ReferenceSearch, ((aliases.visit ty).after search).bound = search.bound := by
  have listing := listing_undeclared aliases (ty.freeNames [])
  rw [← unresolvedReferences_eq_undeclared] at listing
  have listed (name : String) : name ∈ aliases.unresolvedReferences ty ↔
      aliases.contains name = false ∧ ∃ path, ty.FreeAt name path := by
    rw [listing.mem_iff, Ty.mem_freeNames_iff, Ty.occursFree_iff_exists_freeAt, and_comm]
    simp
  refine ⟨listing.distinct, listed, ?_, listing.order.imp ?_, fun search => ?_⟩
  · intro name inside outside _ free undeclared
    exact (listed name).mpr ⟨undeclared, outside, free⟩
  · rintro a b ⟨before, after, split, new, different⟩
    obtain ⟨path, free, first⟩ := Ty.exists_first_freeAt split
    exact ⟨path, free, fun place stands => first b place stands List.not_mem_nil new different⟩
  · rw [after_visit, ReferenceSearch.bound_meet]

/-- Two functions bind `T`, the inner one also in the constraint of its other type parameter. Behind
them `T` is free. -/
example : ({} : AliasMap).unresolvedReferences (.tuple
    [.function ⟨[⟨"T", none⟩], [.function ⟨[⟨"S", some (.ref "T")⟩, ⟨"T", none⟩], [], .ref "S"⟩],
      .ref "Missing"⟩, .ref "T", .ref "Missing"]) = ["Missing", "T"] := by decide

end AliasMap

end StructuralTypes
