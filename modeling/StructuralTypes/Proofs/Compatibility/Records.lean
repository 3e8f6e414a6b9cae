import StructuralTypes.ObjectLiteral
import StructuralTypes.Proofs.Compatibility.Finite

/-!
A record and the object that has nothing but its index signature are never equal as types, so a
shortcut that goes by equality takes one of them and not the other. Without recursion the rules make
up for that.
-/

set_option autoImplicit false

namespace StructuralTypes

section Equality

variable {aliases : AliasMap} {key value record spelling ty : Ty}

/-- What equals a spelling of a record has a shape with an equal index signature and nothing else. -/
theorem exists_index_of_same (spelled : record.asShape? = some (.ofRecord key value))
    (equal : record.Same ty) : ∃ shape own, ty.asShape? = some shape ∧ shape.properties = [] ∧
      shape.index = some own ∧ value.Same own.value := by
  obtain ⟨shape, shaped, same⟩ := Ty.exists_equal_shape equal spelled
  obtain ⟨counts, _, index, _⟩ := (Ty.same_object_iff _ _).mp same
  cases found : shape.index with
  | none =>
      rw [found] at index
      cases index
  | some own =>
      rw [found] at index
      have parts := Option.rel_some_some.mp index
      exact ⟨shape, own, shaped, List.length_eq_zero_iff.mp counts.symm, found, parts.2⟩

variable (wf : aliases.WellFormed) (wfRecord : record.WellFormed)
  (spelled : record.asShape? = some (.ofRecord key value))
  (respelled : spelling.asShape? = some (.ofRecord key value))

include wf wfRecord spelled respelled

/-- What equals the one spelling goes with the other by the rule for shapes, in both directions. -/
theorem justified_of_equal_spelling (wfTy : ty.WellFormed) (equal : record.Same ty) :
    Justified aliases (fun v t => Derivable aliases [] ⟨v, t⟩) spelling ty ∧
      Justified aliases (fun v t => Derivable aliases [] ⟨v, t⟩) ty spelling := by
  obtain ⟨shape, own, shaped, bare, index, same⟩ := exists_index_of_same spelled equal
  have wfValue : value.WellFormed := (wfRecord.asShape spelled).indexValue rfl
  have wfOwn : own.value.WellFormed := (wfTy.asShape shaped).indexValue index
  constructor
  · refine .byShape (isNever_of_asShape? shaped) (.shapes respelled shaped ⟨?_, nofun, ?_⟩)
    · rw [bare]
      nofun
    · rintro i _ found ⟨⟩
      cases index.symm.trans found
      exact .of_same wf ⟨wfValue, wfOwn⟩ same
  · refine .byShape (isNever_of_asShape? respelled) (.shapes shaped respelled ⟨nofun, ?_, ?_⟩)
    · rw [bare]
      nofun
    · rintro _ i ⟨⟩ found
      cases index.symm.trans found
      exact .of_same wf ⟨wfOwn, wfValue⟩ (Ty.same_symm wfValue wfOwn same)

end Equality

namespace Derivable

variable {aliases : AliasMap} (wf : aliases.WellFormed) (nonrecursive : aliases.Nonrecursive)
  {key value record spelling ty : Ty} (wfRecord : record.WellFormed)
  (spelled : record.asShape? = some (.ofRecord key value))
  (respelled : spelling.asShape? = some (.ofRecord key value)) (wfTy : ty.WellFormed)

include wf nonrecursive wfRecord spelled respelled wfTy

/-- A record goes where its other spelling goes. -/
theorem respell_value (derived : Derivable aliases [] ⟨record, ty⟩) :
    Derivable aliases [] ⟨spelling, ty⟩ := by
  -- Unions and intersections on the target side ask about the record again, so the induction is on
  -- the target. A member of a union that equals the record is taken by the rule for shapes instead.
  refine finiteInduction (motive := fun v t => v = record → Derivable aliases [] ⟨spelling, t⟩)
    wf nonrecursive ?_ ⟨wfRecord, wfTy⟩ derived rfl
  rintro _ target wfQuery premises rfl
  refine .of_justified ?_
  have wfTarget := AliasMap.concrete_wellFormed wf wfQuery.target
  have single : spelling.isUnion = false := by cases spelling <;> first | rfl | cases respelled
  rw [AliasMap.concrete_of_asShape? spelled] at premises
  rw [AliasMap.concrete_of_asShape? respelled]
  generalize aliases.concrete target = concrete at premises wfTarget
  cases premises with
  | anyTarget => exact .anyTarget spelling
  | anyValue => cases spelled
  | neverValue => cases spelled
  | equal same => exact (justified_of_equal_spelling wf wfRecord spelled respelled wfTarget same).1
  | byShape inhabited rule =>
      cases rule with
      | @toUnion _ member members _ listed accepts =>
          refine .byShape inhabited (.toUnion single listed (Or.inr ?_))
          rcases accepts with same | ⟨_, respell⟩
          · have wfMember := wfTarget.unionMember listed
            have equal := Ty.same_symm wfMember wfRecord same
            obtain ⟨shape, _, shaped, _⟩ := exists_index_of_same spelled equal
            refine .of_justified ?_
            rw [AliasMap.concrete_of_asShape? respelled, AliasMap.concrete_of_asShape? shaped]
            exact (justified_of_equal_spelling wf wfRecord spelled respelled wfMember equal).1
          · exact respell rfl
      | toIntersection _ each =>
          exact .byShape inhabited (.toIntersection single fun m listed => (each m listed).2 rfl)
      | sameClass valueShape _ valueClass =>
          cases spelled.symm.trans valueShape
          cases valueClass
      | shapes valueShape targetShape met =>
          cases spelled.symm.trans valueShape
          exact .byShape inhabited (.shapes respelled targetShape (met.mono fun v t known => known.1))
      | _ => cases spelled

/-- What goes where a record is expected goes where its other spelling is. -/
theorem respell_target (derived : Derivable aliases [] ⟨ty, record⟩) :
    Derivable aliases [] ⟨ty, spelling⟩ := by
  refine finiteInduction (motive := fun v t => t = record → Derivable aliases [] ⟨v, spelling⟩)
    wf nonrecursive ?_ ⟨wfTy, wfRecord⟩ derived rfl
  rintro source _ wfQuery premises rfl
  refine .of_justified ?_
  have wfSource := AliasMap.concrete_wellFormed wf wfQuery.value
  have inhabited := isNever_of_asShape? respelled
  have noUnion : spelling.isUnion = false := by cases spelling <;> first | rfl | cases respelled
  have noIntersection : spelling.isIntersection = false := by
    cases spelling <;> first | rfl | cases respelled
  rw [AliasMap.concrete_of_asShape? spelled] at premises
  rw [AliasMap.concrete_of_asShape? respelled]
  generalize aliases.concrete source = concrete at premises wfSource
  cases premises with
  | anyTarget => cases spelled
  | anyValue => exact .anyValue spelling
  | neverValue => exact .neverValue spelling
  | equal same =>
      exact (justified_of_equal_spelling wf wfRecord spelled respelled wfSource
        (Ty.same_symm wfSource wfRecord same)).2
  | byShape _ rule =>
      cases rule with
      | ofUnion each => exact .byShape inhabited (.ofUnion fun m listed => (each m listed).2 rfl)
      | ofMember _ _ listed accepted =>
          exact .byShape inhabited (.ofMember noUnion noIntersection listed (accepted.2 rfl))
      | ofMerged _ merges accepted =>
          exact .byShape inhabited (.ofMerged respelled merges (accepted.2 rfl))
      | sameClass _ targetShape _ targetClass =>
          cases spelled.symm.trans targetShape
          cases targetClass
      | shapes valueShape targetShape met =>
          cases spelled.symm.trans targetShape
          exact .byShape inhabited (.shapes valueShape respelled (met.mono fun v t known => known.1))
      | _ => cases spelled

end Derivable

namespace Context

/-- Literals are checked alike against both spellings. -/
theorem validateLiteral_record (ctx : Context) (key value : Ty) (literal : Shape Ty) :
    ctx.validateLiteral (.object literal) (.record key value) =
      ctx.validateLiteral (.object literal) (.object (.ofRecord key value)) := by
  have record : ctx.aliases.concrete (.record key value) = .record key value :=
    AliasMap.concrete_of_asShape? rfl
  have object : ctx.aliases.concrete (.object (.ofRecord key value)) = .object (.ofRecord key value) :=
    AliasMap.concrete_of_asShape? rfl
  rw [validateLiteral, validateLiteral, targetFindings, targetFindings, record, object]
  rfl

/-- Marks that may be missing. -/
def school : Context where
  aliases := { definitions := [⟨"Mark", [], .unionOf [.number, .null]⟩] }

end Context

end StructuralTypes
