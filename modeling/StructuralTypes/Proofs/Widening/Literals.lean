import StructuralTypes.Proofs.Compatibility.Alternatives
import StructuralTypes.Proofs.Ty.Composition

set_option autoImplicit false

namespace StructuralTypes

namespace Ty

section Members

variable {ty m : Ty} {members tys : List Ty}

theorem widenLiteral_eq_self (flat : m.isUnion = false) (plain : m.isLiteral = false) :
    m.widenLiteral = m := by
  cases m with
  | literal => cases plain
  | unionOf => cases flat
  | _ => rfl

theorem isUnion_widenLiteral (flat : m.isUnion = false) : m.widenLiteral.isUnion = false := by
  cases m with
  | unionOf => cases flat
  | _ => rfl

theorem isLiteral_widenLiteral (flat : m.isUnion = false) : m.widenLiteral.isLiteral = false := by
  cases m with
  | unionOf => cases flat
  | _ => rfl

/-- Widening goes member by member. -/
theorem widenLiteral_eq_union (wf : ty.WellFormed) :
    ty.widenLiteral = union (ty.unionMembers.map widenLiteral) := by
  cases ty with
  | unionOf members => rw [widenLiteral, widenLiterals_eq_map, unionMembers]
  | _ => exact (union_singleton (widenLiteral_wellFormed wf)).symm

theorem widenLiteral_map_wellFormed (wf : ∀ ty ∈ tys, ty.WellFormed) :
    ∀ ty ∈ tys.map widenLiteral, ty.WellFormed :=
  List.forall_mem_map.mpr fun ty listed => widenLiteral_wellFormed (wf ty listed)

theorem unionMembers_widenLiteral (flat : m.isUnion = false) :
    m.widenLiteral.unionMembers = [m.widenLiteral] :=
  unionMembers_eq_self (isUnion_widenLiteral flat)

theorem not_isLiteral_of_widenLiteral (wf : ty.WellFormed)
    (member : m ∈ ty.widenLiteral.unionMembers) : m.isLiteral = false := by
  have wfMembers : ∀ n ∈ ty.unionMembers, n.WellFormed := fun n => wf.unionMembers
  rw [widenLiteral_eq_union wf] at member
  cases proper : (union (ty.unionMembers.map widenLiteral)).isAny with
  | true =>
      rw [(isAny_iff _).mp proper] at member
      cases List.mem_singleton.mp member
      rfl
  | false =>
      rw [unionMembers_union (widenLiteral_map_wellFormed wfMembers) proper] at member
      split at member
      · cases List.mem_singleton.mp member
        rfl
      · obtain ⟨w, listed, inside⟩ := List.mem_flatMap.mp (mem_of_mem_unionParts member)
        obtain ⟨n, own, rfl⟩ := List.mem_map.mp listed
        have flat := wf.unionMembers_flat own
        rw [unionMembers_widenLiteral flat, List.mem_singleton] at inside
        rw [inside]
        exact isLiteral_widenLiteral flat

/-- A type without literal members is as wide as it can be. -/
theorem widenLiteral_of_no_literal (wf : ty.WellFormed)
    (plain : ∀ m ∈ ty.unionMembers, m.isLiteral = false) : ty.widenLiteral = ty := by
  have kept : ty.unionMembers.map widenLiteral = ty.unionMembers :=
    (List.map_congr_left fun m member =>
      widenLiteral_eq_self (wf.unionMembers_flat member) (plain m member)).trans (List.map_id _)
  rw [widenLiteral_eq_union wf, kept]
  cases ty with
  | unionOf members => exact union_of_normal wf.node
  | _ => exact union_singleton wf

theorem widenLiteral_widenLiteral (wf : ty.WellFormed) :
    ty.widenLiteral.widenLiteral = ty.widenLiteral :=
  widenLiteral_of_no_literal (widenLiteral_wellFormed wf) fun _ => not_isLiteral_of_widenLiteral wf

end Members

section Unions

variable {as xs : List Ty} {a b : Ty}

/-- Literals that are equal have one keyword type. -/
theorem widenLiteral_same (flat : a.isUnion = false) (equal : Same a b) :
    Same a.widenLiteral b.widenLiteral := by
  cases sameNode_of_same equal with
  | literal value =>
      rw [widenLiteral, widenLiteral, Literal.base_same value]
      exact same_self _
  | unionOf => cases flat
  | _ => exact equal

/-- What is absorbed is absorbed when everything is widened. -/
theorem UnionAbsorbs.widenLiteral (flat : ∀ a ∈ as, a.isUnion = false) (absorbs : UnionAbsorbs as b) :
    UnionAbsorbs (as.map Ty.widenLiteral) b.widenLiteral := by
  rcases absorbs with ⟨a, listed, isAny⟩ | isNever | ⟨a, listed, equal⟩ | absorbed
  · cases (isAny_iff a).mp isAny
    exact .inl ⟨any, List.mem_map_of_mem listed, rfl⟩
  · cases (isNever_iff b).mp isNever
    exact .inr (.inl rfl)
  · refine .inr (.inr (.inl ⟨_, List.mem_map_of_mem listed, ?_⟩))
    exact widenLiteral_same (flat a listed) equal
  · -- the keyword type that stands beside a literal is what the literal is widened to
    cases b with
    | literal l =>
        obtain ⟨base, listed, isBase⟩ := List.any_eq_true.mp absorbed
        cases base with
        | primitive kind =>
            obtain rfl : kind = l.base := by simpa [primitive?] using isBase
            have widened : (primitive l.base).widenLiteral ∈ as.map Ty.widenLiteral :=
              List.mem_map_of_mem listed
            exact .of_mem widened
        | _ => cases isBase
    | _ => cases absorbed

/-- A union may be built before or after its types are widened. -/
theorem widenLiteral_union (wf : ∀ x ∈ xs, x.WellFormed) :
    Same (union xs).widenLiteral (union (xs.map widenLiteral)) := by
  have wfUnion := union_wellFormed wf
  have wfParts : ∀ m ∈ xs.flatMap unionMembers, m.WellFormed := wellFormed_unionMembers wf
  have flatUnion : ∀ m ∈ (union xs).unionMembers, m.isUnion = false := fun m =>
    wfUnion.unionMembers_flat
  have flatParts : ∀ m ∈ xs.flatMap unionMembers, m.isUnion = false := fun m =>
    isUnion_of_mem_flatMap wf
  have wfMembers : ∀ m ∈ (union xs).unionMembers.map widenLiteral, m.WellFormed :=
    widenLiteral_map_wellFormed fun m => wfUnion.unionMembers
  have wfWidened : ∀ m ∈ (xs.flatMap unionMembers).map widenLiteral, m.WellFormed :=
    widenLiteral_map_wellFormed wfParts
  have members : Same (union ((union xs).unionMembers.map widenLiteral))
      (union ((xs.flatMap unionMembers).map widenLiteral)) := by
    refine union_same_of_absorbs_each wfMembers wfWidened ?_ ?_
    · refine List.forall_mem_map.mpr fun m member => ?_
      exact (unionMembers_union_absorbed wf member).widenLiteral flatParts
    · refine List.forall_mem_map.mpr fun m listed => ?_
      exact (unionMembers_union_absorb wf listed).widenLiteral flatUnion
  have groups : xs.map widenLiteral = xs.map fun x => union (x.unionMembers.map widenLiteral) :=
    List.map_congr_left fun x listed => widenLiteral_eq_union (wf x listed)
  have grouped : Same (union (xs.map widenLiteral))
      (union ((xs.flatMap unionMembers).map widenLiteral)) := by
    rw [groups, List.map_flatMap]
    exact union_flatMap fun x listed =>
      widenLiteral_map_wellFormed fun m => (wf x listed).unionMembers
  rw [widenLiteral_eq_union wfUnion]
  have wfGroups := union_wellFormed (widenLiteral_map_wellFormed wf)
  exact same_trans (union_wellFormed wfMembers) (union_wellFormed wfWidened) wfGroups members
    (same_symm wfGroups (union_wellFormed wfWidened) grouped)

end Unions

section Targets

variable {members : List Ty} {m n : Ty}

/-- No member gives way to another one when a union is widened, except that literals of one keyword
type become one. -/
theorem widenLiteral_mem_distinct (wf : (unionOf members).WellFormed) (listed : m ∈ members) :
    m.widenLiteral ∈ distinct (members.map widenLiteral) := by
  have flat : ∀ m ∈ members, m.isUnion = false := wf.node.flat
  obtain ⟨first, kept, equal⟩ := (distinct_sameSet (members.map widenLiteral)).back _
    (List.mem_map_of_mem listed)
  obtain ⟨n, other, rfl⟩ := List.mem_map.mp (mem_of_mem_distinct kept)
  suffices same : n.widenLiteral = m.widenLiteral from same ▸ kept
  cases litN : n.isLiteral with
  | true =>
      cases n with
      | literal l => exact (eq_of_same_primitive equal).symm
      | _ => cases litN
  | false =>
      cases litM : m.isLiteral with
      | true =>
          cases m with
          | literal l =>
              rw [widenLiteral_eq_self (flat n other) litN] at equal ⊢
              rw [widenLiteral] at equal ⊢
              cases sameNode_of_same equal with
              | primitive => rfl
          | _ => cases litM
      | false =>
          rw [widenLiteral_eq_self (flat n other) litN,
            widenLiteral_eq_self (flat m listed) litM] at equal ⊢
          exact wf.eq_of_same_members other listed equal

theorem widenLiteral_mem (wf : (unionOf members).WellFormed) (listed : m ∈ members) :
    m.widenLiteral ∈ (unionOf members).widenLiteral.unionMembers := by
  have normal : NormalUnion members := wf.node
  have proper {test : Ty → Bool} (keyword : ∀ l : Literal, test (primitive l.base) = false)
      (member : ∀ n ∈ members, test n = false) : ∀ n ∈ members, test n.widenLiteral = false := by
    intro n other
    cases lit : n.isLiteral with
    | true =>
        cases n with
        | literal l => exact keyword l
        | _ => cases lit
    | false =>
        rw [widenLiteral_eq_self (normal.flat n other) lit]
        exact member n other
  have noAny := proper (by rintro (_ | _ | _) <;> rfl) fun n other => (normal.proper n other).1
  have noNever := proper (by rintro (_ | _ | _) <;> rfl) fun n other => (normal.proper n other).2
  have flat : (members.map widenLiteral).flatMap unionMembers = members.map widenLiteral :=
    flatMap_unionMembers (List.forall_mem_map.mpr fun n other =>
      isUnion_widenLiteral (normal.flat n other))
  have wfWidened := widenLiteral_map_wellFormed fun n => wf.unionMember (m := n)
  have properUnion : (union (members.map widenLiteral)).isAny = false := by
    rw [isAny_union_eq_false_iff, flat]
    exact List.forall_mem_map.mpr noAny
  have unabsorbed : isAbsorbed (members.map widenLiteral) m.widenLiteral = false := by
    have plain := isLiteral_widenLiteral (normal.flat m listed)
    cases widened : m.widenLiteral with
    | literal l =>
        rw [widened] at plain
        cases plain
    | _ => rfl
  rw [widenLiteral, widenLiterals_eq_map]
  refine mem_unionMembers_union wfWidened properUnion (mem_unionParts_iff.mpr ?_)
  rw [flat]
  exact ⟨widenLiteral_mem_distinct wf listed, noNever m listed, unabsorbed⟩

/-- Widening leaves several members of a union, or a keyword type for all of them. -/
theorem widenLiteral_unionOf_cases (wf : (unionOf members).WellFormed) :
    (∃ others, (unionOf members).widenLiteral = unionOf others) ∨
      ∃ l : Literal, (unionOf members).widenLiteral = primitive l.base := by
  have normal : NormalUnion members := wf.node
  by_cases several : (unionOf members).widenLiteral.isUnion = true
  · exact Or.inl (exists_unionOf several)
  · rw [Bool.not_eq_true] at several
    have one (m : Ty) (listed : m ∈ members) : m.widenLiteral = (unionOf members).widenLiteral := by
      have inside := widenLiteral_mem wf listed
      rw [unionMembers_eq_self several] at inside
      exact List.mem_singleton.mp inside
    by_cases found : ∃ m ∈ members, m.isLiteral = true
    · obtain ⟨m, listed, lit⟩ := found
      cases m with
      | literal l => exact Or.inr ⟨l, (one _ listed).symm⟩
      | _ => cases lit
    · -- two members that are no literals would both be the whole
      have itself (m : Ty) (listed : m ∈ members) : m = (unionOf members).widenLiteral := by
        rw [← one m listed, widenLiteral_eq_self (normal.flat m listed)]
        exact Bool.eq_false_iff.mpr fun lit => found ⟨m, listed, lit⟩
      match members, normal.several, normal.apart with
      | a :: b :: rest, _, apart =>
          have equal : a = b := (itself a (.head _)).trans (itself b (.tail _ (.head _))).symm
          have different : Apart a b := List.rel_of_pairwise_cons apart (.head _)
          exact absurd (equal ▸ same_self a) different.1

end Targets

end Ty

/-- A target holds a value just as it is written, or by the keyword type of a literal, at the end of a
path through members of unions. -/
inductive Contained (aliases : AliasMap) (value : Ty) : Ty → Prop
  | self : Contained aliases value value
  | base {target : Ty} {l : Literal} (literal : aliases.concrete value = .literal l)
    (keyword : aliases.concrete target = .primitive l.base) : Contained aliases value target
  | member {target m : Ty} {members : List Ty} (union : aliases.concrete target = .unionOf members)
    (listed : m ∈ members) (inside : Contained aliases value m) : Contained aliases value target

namespace Contained

variable {aliases : AliasMap} {value target : Ty}

/-- The members of a union are held wherever the union is. -/
theorem alternative {members : List Ty} {m : Ty} (contained : Contained aliases value target)
    (union : aliases.concrete value = .unionOf members) (listed : m ∈ members) :
    Contained aliases m target := by
  induction contained with
  | self => exact .member union listed .self
  | base literal =>
      rw [union] at literal
      cases literal
  | member outer within _ ih => exact .member outer within ih

theorem justified (firm : Firm aliases value) (contained : Contained aliases value target) :
    Justified aliases (fun v t => ∃ q : Query, Query.concrete ⟨v, t⟩ aliases = q.concrete aliases ∧
        Firm aliases q.value ∧ Contained aliases q.value q.target)
      (aliases.concrete value) (aliases.concrete target) := by
  cases contained with
  | self => exact .equal (Ty.same_self _)
  | @base _ l literal keyword =>
      rw [literal, keyword]
      have inhabited : (Ty.primitive l.base).isNever = false := by cases l <;> rfl
      exact .byShape inhabited (.literalBase l)
  | @member _ m members outer within inside =>
      by_cases several : (aliases.concrete value).isUnion = true
      · obtain ⟨own, union⟩ := Ty.exists_unionOf several
        rw [union]
        refine .byShape (by rw [outer]; rfl) (.ofUnion fun n listed => ⟨⟨n, target⟩, ?_, ?_, ?_⟩)
        · rw [Query.concrete, Query.concrete, outer, concrete_unionOf]
        · exact firm.member union listed
        · exact .member outer within (inside.alternative union listed)
      · rw [outer]
        refine .byShape rfl (.toUnion (by simpa using several) within (Or.inr ⟨⟨value, m⟩, ?_, ?_⟩))
        · rw [Query.concrete, Query.concrete, firm.concrete]
        · exact ⟨firm, inside⟩

end Contained

namespace Context

variable (ctx : Context) {value target : Ty}

/-- What a target holds is granted, whatever the definitions look like. -/
theorem accepts_of_contained (firm : Firm ctx.aliases value)
    (contained : Contained ctx.aliases value target) : ctx.Accepts value target := by
  let pairs : Set Query := { p | ∃ q : Query,
    p = q.concrete ctx.aliases ∧ Firm ctx.aliases q.value ∧ Contained ctx.aliases q.value q.target }
  refine ctx.accepts_of_justified pairs ?_ ⟨⟨value, target⟩, rfl, firm, contained⟩
  rintro p ⟨q, rfl, firm, contained⟩
  exact (contained.justified firm).mono fun v t premise => Or.inl premise

theorem contained_widenLiteral {aliases : AliasMap} {m : Ty} (flat : m.isUnion = false) :
    Contained aliases m m.widenLiteral := by
  cases m with
  | literal l => exact .base (concrete_literal l) (concrete_primitive l.base)
  | unionOf => cases flat
  | _ => exact .self

theorem accepts_widenLiteral {ty : Ty} (wf : ty.WellFormed) (firm : Firm ctx.aliases ty) :
    ctx.Accepts ty ty.widenLiteral := by
  cases ty with
  | unionOf members =>
      have flat : ∀ m ∈ members, m.isUnion = false := wf.node.flat
      have each (m : Ty) (listed : m ∈ members) :
          ctx.Accepts m (Ty.unionOf members).widenLiteral := by
        have inside := Ty.widenLiteral_mem wf listed
        have widened : Contained ctx.aliases m m.widenLiteral :=
          contained_widenLiteral (flat m listed)
        refine ctx.accepts_of_contained (firm.unionMember listed) ?_
        rcases Ty.widenLiteral_unionOf_cases wf with ⟨others, union⟩ | ⟨l, keyword⟩
        · rw [union] at inside ⊢
          exact .member (concrete_unionOf others) inside widened
        · rw [keyword] at inside ⊢
          rw [← List.mem_singleton.mp inside]
          exact widened
      rcases Ty.widenLiteral_unionOf_cases wf with ⟨others, union⟩ | ⟨l, keyword⟩
      · refine ctx.accepts_of_members ?_ ?_ each
        · rw [union, concrete_unionOf]
          rfl
        · rw [union, concrete_unionOf, concrete_unionOf]
      · refine ctx.accepts_of_members ?_ ?_ each
        · rw [keyword, concrete_primitive]
          cases l <;> rfl
        · rw [keyword, concrete_primitive, concrete_primitive]
  | _ => exact ctx.accepts_of_contained firm (contained_widenLiteral rfl)

end Context

namespace Ty

/-- Widening commutes with building unions, is done once and for all, leaves no literals among the
members, and gives a type that accepts the one that was widened, if no chain of references is endless
and no `keyof` stands anywhere. -/
theorem widenLiteral_closes (xs : List Ty) (wfXs : ∀ x ∈ xs, x.WellFormed) (ty : Ty)
    (wf : ty.WellFormed) :
    Same (union xs).widenLiteral (union (xs.map widenLiteral)) ∧
      Same ty.widenLiteral.widenLiteral ty.widenLiteral ∧
      (∀ m ∈ ty.widenLiteral.unionMembers, m.isLiteral = false) ∧
      ∀ ctx : Context, ctx.aliases.Plain → ty.KeyofFree →
        (ctx.compatible ty ty.widenLiteral).cut = false →
        (ctx.compatible ty ty.widenLiteral).value = true := by
  refine ⟨widenLiteral_union wfXs, ?_, fun m => not_isLiteral_of_widenLiteral wf, ?_⟩
  · rw [widenLiteral_widenLiteral wf]
    exact same_self _
  · intro ctx plain free finished
    have firm := firm_of_keyofFree plain free
    exact ctx.compatible_of_accepts (ctx.accepts_widenLiteral wf firm) finished

/-- A path goes up, or it is a list of paths or once more a path. -/
def paths : Context where
  aliases :=
    { definitions :=
        [⟨"Path", [], .unionOf [.literal (.text "up"), .ref "Path", .array (.ref "Path")]⟩] }

/-- Of a union with the recursive name of paths, the literals are widened and the name stays. -/
theorem paths_closes :
    let xs : List Ty := [.literal (.text "up"), .unionOf [.ref "Path", .literal (.text "down")], .null]
    let ty : Ty := .unionOf [.literal (.text "up"), .ref "Path", .literal (.text "down"), .null]
    (union xs = ty ∧ ty.widenLiteral = .unionOf [.string, .ref "Path", .null]) ∧
      Same (union xs).widenLiteral (union (xs.map widenLiteral)) ∧
      Same ty.widenLiteral.widenLiteral ty.widenLiteral ∧
      (∀ m ∈ ty.widenLiteral.unionMembers, m.isLiteral = false) ∧
      (paths.compatible ty ty.widenLiteral).value = true := by
  intro xs ty
  have plain : paths.aliases.Plain := by
    refine ⟨by decide, fun d listed => ?_⟩
    cases List.mem_singleton.mp listed
    exact ⟨_, rfl⟩
  obtain ⟨commutes, once, noLiteral, accepts⟩ :=
    widenLiteral_closes xs (by decide +kernel) ty (by decide +kernel)
  exact ⟨⟨rfl, rfl⟩, commutes, once, noLiteral, accepts paths plain (by decide) (by decide +kernel)⟩

end Ty

end StructuralTypes
