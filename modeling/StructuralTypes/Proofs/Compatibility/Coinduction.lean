import Mathlib.Data.Set.Basic
import StructuralTypes.Proofs.Compatibility.Derivation

set_option autoImplicit false

namespace StructuralTypes

theorem Justified.mono {aliases : AliasMap} {holds weaker : Ty → Ty → Prop} {value target : Ty}
    (implies : ∀ v t, holds v t → weaker v t) (justified : Justified aliases holds value target) :
    Justified aliases weaker value target := by
  apply (justified_iff ⟨value, target⟩).mpr
  rcases (justified_iff ⟨value, target⟩).mp justified with settled | ⟨undecided, met⟩
  · exact Or.inl settled
  · exact Or.inr ⟨undecided, met.mono fun q => implies q.value q.target⟩

/-- A pair of types, once made concrete, equals a pair of the set. -/
def Supported (aliases : AliasMap) (pairs : Set Query) (value target : Ty) : Prop :=
  ∃ p ∈ pairs, (aliases.concrete value).Same p.value ∧ (aliases.concrete target).Same p.target

theorem supported_of_mem {aliases : AliasMap} {pairs : Set Query} {value target : Ty}
    (member : Query.concrete ⟨value, target⟩ aliases ∈ pairs) :
    Supported aliases pairs value target :=
  ⟨_, member, Ty.same_self _, Ty.same_self _⟩

theorem contains_iff (queries : List Query) (q : Query) :
    queries.contains q = true ↔ ∃ p ∈ queries, q.value.Same p.value ∧ q.target.Same p.target := by
  rw [List.contains_iff_exists_mem_beq]
  constructor
  · rintro ⟨p, member, equal⟩
    exact ⟨p, member, (Bool.and_eq_true _ _).mp equal⟩
  · rintro ⟨p, member, equal⟩
    exact ⟨p, member, (Bool.and_eq_true _ _).mpr equal⟩

/-- A set of concrete pairs that the rules justify from each other and from the queries around. -/
structure ClosedWithin (aliases : AliasMap) (around : List Query) (pairs : Set Query) : Prop where
  concrete : ∀ p ∈ pairs, ∃ q : Query, p = q.concrete aliases
  justified : ∀ p ∈ pairs, Justified aliases
    (fun value target => Supported aliases pairs value target ∨
      around.contains (Query.concrete ⟨value, target⟩ aliases) = true) p.value p.target

/-- All pairs of all such sets. -/
def largestWithin (aliases : AliasMap) (around : List Query) : Set Query :=
  { p | ∃ pairs, ClosedWithin aliases around pairs ∧ p ∈ pairs }

theorem closed_largestWithin (aliases : AliasMap) (around : List Query) :
    ClosedWithin aliases around (largestWithin aliases around) where
  concrete := by
    rintro p ⟨pairs, closed, member⟩
    exact closed.concrete p member
  justified := by
    rintro p ⟨pairs, closed, member⟩
    refine (closed.justified p member).mono fun value target => Or.imp_left ?_
    rintro ⟨q, inside, equal⟩
    exact ⟨q, ⟨pairs, closed, inside⟩, equal⟩

/-- One step of a derivation stays inside of the largest set. Inside of the query itself, the query
counts as derived; with it added, the set for the premises is closed without that assumption. -/
theorem mem_largestWithin_of_rule {aliases : AliasMap} {around : List Query} {q : Query}
    (undecided : (q.concrete aliases).settled? = none)
    (met : (Rule.of aliases (q.concrete aliases)).Holds fun p =>
      p.concrete aliases ∈ largestWithin aliases (q.concrete aliases :: around) ∨
        (q.concrete aliases :: around).contains (p.concrete aliases) = true) :
    q.concrete aliases ∈ largestWithin aliases around := by
  let pairs : Set Query :=
    { p | p = q.concrete aliases ∨ p ∈ largestWithin aliases (q.concrete aliases :: around) }
  have inner := closed_largestWithin aliases (q.concrete aliases :: around)
  have known (value target : Ty)
      (inside : (q.concrete aliases :: around).contains (Query.concrete ⟨value, target⟩ aliases) = true) :
      Supported aliases pairs value target ∨
        around.contains (Query.concrete ⟨value, target⟩ aliases) = true := by
    obtain ⟨p, member, equal⟩ := (contains_iff _ _).mp inside
    rcases List.mem_cons.mp member with rfl | outer
    · exact Or.inl ⟨_, Or.inl rfl, equal⟩
    · exact Or.inr ((contains_iff _ _).mpr ⟨p, outer, equal⟩)
  refine ⟨pairs, ⟨?_, ?_⟩, Or.inl rfl⟩
  · rintro p (rfl | member)
    · exact ⟨q, rfl⟩
    · exact inner.concrete p member
  · rintro p (rfl | member)
    · refine (justified_iff (q.concrete aliases)).mpr (Or.inr ⟨undecided, met.mono ?_⟩)
      rintro p (member | inside)
      · exact Or.inl (supported_of_mem (Or.inr member))
      · exact known p.value p.target inside
    · refine (inner.justified p member).mono ?_
      rintro value target (⟨r, inside, equal⟩ | inside)
      · exact Or.inl ⟨r, Or.inr inside, equal⟩
      · exact known value target inside

theorem mem_largestWithin_of_derivable {aliases : AliasMap} {around : List Query} {q : Query}
    (derived : Derivable aliases around q) :
    q.concrete aliases ∈ largestWithin aliases around ∨
      around.contains (q.concrete aliases) = true := by
  induction derived with
  | @settled around q answer =>
      refine Or.inl ⟨{ q.concrete aliases }, ⟨?_, ?_⟩, rfl⟩
      · rintro p rfl
        exact ⟨q, rfl⟩
      · rintro p rfl
        exact (justified_iff (q.concrete aliases)).mpr (Or.inl answer)
  | cycle undecided known => exact Or.inr known
  | @all around q demands undecided rule possible each ih =>
      refine Or.inl (mem_largestWithin_of_rule undecided ?_)
      rw [rule]
      intro demand asked
      cases demand with
      | refuse => exact possible asked
      | query p => exact ih p asked
  | @any around q p queries undecided rule member premise ih =>
      refine Or.inl (mem_largestWithin_of_rule undecided ?_)
      rw [rule]
      exact ⟨p, member, ih⟩

namespace Context

variable (ctx : Context)

/-- A positive answer is right, whether or not a limit was hit on the way to it: the pair belongs to
a set of pairs of concrete types that the rules justify from each other. -/
theorem compatible_sound (value target : Ty)
    (accepted : (ctx.compatible value target).value = true) :
    ∃ pairs : Set Query, Query.concrete ⟨value, target⟩ ctx.aliases ∈ pairs ∧
      (∀ p ∈ pairs, ∃ q : Query, p = q.concrete ctx.aliases) ∧
      ∀ p ∈ pairs, Justified ctx.aliases (Supported ctx.aliases pairs) p.value p.target := by
  have derived : Derivable ctx.aliases [] ⟨value, target⟩ := ctx.derivable_of_compatible accepted
  have closed := closed_largestWithin ctx.aliases []
  refine ⟨largestWithin ctx.aliases [], ?_, closed.concrete, ?_⟩
  · exact (mem_largestWithin_of_derivable derived).resolve_right (by simp)
  · intro p member
    exact (closed.justified p member).mono fun v t supported => supported.resolve_right (by simp)

/-- Two lists without an end, one of ones and one of numbers. -/
def endless : Context where
  aliases :=
    { definitions :=
        [⟨"Ones", [], .object { properties := [⟨"head", .literal (.number ⟨0x3ff0000000000000⟩), false⟩,
            ⟨"tail", .ref "Ones", false⟩] }⟩,
          ⟨"Numbers", [], .object { properties := [⟨"head", .number, false⟩,
            ⟨"tail", .ref "Numbers", true⟩] }⟩] }

theorem endless_ones_sound :
    (endless.compatible (.ref "Ones") (.ref "Numbers")).value = true ∧
      ∃ pairs : Set Query, Query.concrete ⟨.ref "Ones", .ref "Numbers"⟩ endless.aliases ∈ pairs ∧
        (∀ p ∈ pairs, ∃ q : Query, p = q.concrete endless.aliases) ∧
        ∀ p ∈ pairs, Justified endless.aliases (Supported endless.aliases pairs) p.value p.target :=
  have accepted : (endless.compatible (.ref "Ones") (.ref "Numbers")).value = true := by
    decide +kernel
  ⟨accepted, endless.compatible_sound _ _ accepted⟩

/-- Pairs that the rules justify from each other, or from pairs that are granted anyway, are granted
wherever they are asked. -/
theorem accepts_of_justified (pairs : Set Query)
    (justified : ∀ p ∈ pairs, Justified ctx.aliases
      (fun v t => Query.concrete ⟨v, t⟩ ctx.aliases ∈ pairs ∨ ctx.Accepts v t) p.value p.target)
    {value target : Ty} (member : Query.concrete ⟨value, target⟩ ctx.aliases ∈ pairs) :
    ctx.Accepts value target := by
  intro levels
  induction levels generalizing value target with
  | zero =>
      intro walk room
      exact absurd room.positive (Nat.lt_irrefl 0)
  | succ levels ih =>
      intro walk room
      refine ctx.check_granted _ room ((justified_iff _).mp (justified _ member)) ?_
      rintro p (inside | granted) inner innerRoom _
      · exact ih inside inner innerRoom
      · exact granted levels inner innerRoom

/-- A refusal that no limit is to blame for is right: a pair that belongs to a set of pairs that the
rules justify from each other is accepted. -/
theorem compatible_complete (value target : Ty) (pairs : Set Query)
    (member : Query.concrete ⟨value, target⟩ ctx.aliases ∈ pairs)
    (justified : ∀ p ∈ pairs, Justified ctx.aliases
      (fun v t => Query.concrete ⟨v, t⟩ ctx.aliases ∈ pairs) p.value p.target)
    (finished : (ctx.compatible value target).cut = false) :
    (ctx.compatible value target).value = true := by
  refine ctx.compatible_of_accepts (ctx.accepts_of_justified pairs ?_ member) finished
  intro p inside
  exact (justified p inside).mono fun v t => Or.inl

/-- The set for a list of ones where a list of numbers is expected holds three pairs: the two lists,
their heads, and the tail with what an optional tail accepts, which leads back to the lists. -/
theorem endless_ones_complete :
    (endless.compatible (.ref "Ones") (.ref "Numbers")).cut = false ∧
      (endless.compatible (.ref "Ones") (.ref "Numbers")).value = true := by
  have finished : (endless.compatible (.ref "Ones") (.ref "Numbers")).cut = false := by decide +kernel
  refine ⟨finished, ?_⟩
  let start : Query := Query.concrete ⟨.ref "Ones", .ref "Numbers"⟩ endless.aliases
  let heads : Query := ⟨.literal (.number ⟨0x3ff0000000000000⟩), .number⟩
  let tails : Query := ⟨start.value, .unionOf [.ref "Numbers", .undefined]⟩
  refine endless.compatible_complete _ _ { start, heads, tails } (Or.inl rfl) ?_ finished
  rintro p (rfl | rfl | rfl)
  · refine .byShape rfl (.shapes rfl rfl ⟨?_, ?_, ?_⟩)
    · intro slot member
      change slot ∈ [⟨"head", .number, false⟩, ⟨"tail", .ref "Numbers", true⟩] at member
      simp only [List.mem_cons, List.not_mem_nil, or_false] at member
      rcases member with rfl | rfl
      · exact ⟨fun given => Bool.noConfusion given, Or.inr (Or.inl rfl)⟩
      · exact ⟨fun _ => rfl, Or.inr (Or.inr rfl)⟩
    · intro index found
      cases found
    · intro index own found
      cases found
  · exact .byShape rfl (.literalBase _)
  · exact .byShape rfl (.toUnion rfl List.mem_cons_self (Or.inr (Or.inl rfl)))

end Context

end StructuralTypes
