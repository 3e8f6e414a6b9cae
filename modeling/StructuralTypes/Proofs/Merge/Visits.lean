import StructuralTypes.Proofs.Merge
import StructuralTypes.Proofs.Reordering.Aliases

set_option autoImplicit false

namespace StructuralTypes

/-- What is reached from a type through members of intersections and through names. -/
inductive LeafOf (aliases : AliasMap) : Ty → Ty → Prop
  | member {members : List Ty} {m leaf : Ty} (listed : m ∈ members) (inside : LeafOf aliases m leaf) :
    LeafOf aliases (.intersectionOf members) leaf
  | named {name : String} {leaf : Ty} (resolved : (aliases.resolve (.ref name)).refName? = none)
    (inside : LeafOf aliases (aliases.resolve (.ref name)) leaf) : LeafOf aliases (.ref name) leaf
  | stuck {name other : String} (resolved : aliases.resolve (.ref name) = .ref other) :
    LeafOf aliases (.ref name) (.ref other)
  | leaf {ty : Ty} (single : ty.isIntersection = false) (unnamed : ty.refName? = none) :
    LeafOf aliases ty ty

/-- The leaves that a walk visits from left to right, with the names it has seen and the types that
are still on its agenda. -/
inductive Visits (aliases : AliasMap) : List String → List Ty → List Ty → Prop
  | done {seen : List String} : Visits aliases seen [] []
  | again {seen : List String} {name : String} {agenda leaves : List Ty} (known : name ∈ seen)
    (rest : Visits aliases seen agenda leaves) : Visits aliases seen (.ref name :: agenda) leaves
  | stuck {seen : List String} {name other : String} {agenda leaves : List Ty} (new : name ∉ seen)
    (resolved : aliases.resolve (.ref name) = .ref other)
    (rest : Visits aliases (name :: seen) agenda leaves) :
    Visits aliases seen (.ref name :: agenda) (.ref other :: leaves)
  | named {seen : List String} {name : String} {agenda leaves : List Ty} (new : name ∉ seen)
    (resolved : (aliases.resolve (.ref name)).refName? = none)
    (rest : Visits aliases (name :: seen) (aliases.resolve (.ref name) :: agenda) leaves) :
    Visits aliases seen (.ref name :: agenda) leaves
  | members {seen : List String} {members agenda leaves : List Ty}
    (rest : Visits aliases seen (members ++ agenda) leaves) :
    Visits aliases seen (.intersectionOf members :: agenda) leaves
  | leaf {seen : List String} {ty : Ty} {agenda leaves : List Ty} (single : ty.isIntersection = false)
    (unnamed : ty.refName? = none) (rest : Visits aliases seen agenda leaves) :
    Visits aliases seen (ty :: agenda) (ty :: leaves)

namespace Visits

variable {aliases : AliasMap} {seen : List String} {agenda leaves : List Ty}

/-- There is only one order. -/
theorem unique {others : List Ty} (visits : Visits aliases seen agenda leaves)
    (also : Visits aliases seen agenda others) : leaves = others := by
  induction visits generalizing others with
  | done =>
      cases also
      rfl
  | again known _ ih =>
      cases also with
      | again _ rest => exact ih rest
      | stuck new => exact absurd known new
      | named new => exact absurd known new
      | leaf _ unnamed => cases unnamed
  | stuck new resolved _ ih =>
      cases also with
      | again known => exact absurd known new
      | stuck _ same rest =>
          cases resolved.symm.trans same
          rw [ih rest]
      | named _ unnamed =>
          rw [resolved] at unnamed
          cases unnamed
      | leaf _ unnamed => cases unnamed
  | named new resolved _ ih =>
      cases also with
      | again known => exact absurd known new
      | stuck _ ends =>
          rw [ends] at resolved
          cases resolved
      | named _ _ rest => exact ih rest
      | leaf _ unnamed => cases unnamed
  | members _ ih =>
      cases also with
      | members rest => exact ih rest
      | leaf single => cases single
  | leaf single unnamed _ ih =>
      cases also with
      | leaf _ _ rest => rw [ih rest]
      | members => cases single
      | again => cases unnamed
      | stuck => cases unnamed
      | named => cases unnamed

/-- Nothing is visited that is not reached. -/
theorem leafOf (visits : Visits aliases seen agenda leaves) :
    ∀ leaf ∈ leaves, ∃ ty ∈ agenda, LeafOf aliases ty leaf := by
  induction visits with
  | done => nofun
  | again _ _ ih =>
      intro leaf visited
      obtain ⟨ty, listed, inside⟩ := ih leaf visited
      exact ⟨ty, .tail _ listed, inside⟩
  | stuck _ resolved _ ih =>
      intro leaf visited
      rcases List.mem_cons.mp visited with rfl | later
      · exact ⟨_, .head _, .stuck resolved⟩
      · obtain ⟨ty, listed, inside⟩ := ih leaf later
        exact ⟨ty, .tail _ listed, inside⟩
  | named _ resolved _ ih =>
      intro leaf visited
      obtain ⟨ty, listed, inside⟩ := ih leaf visited
      rcases List.mem_cons.mp listed with rfl | later
      · exact ⟨_, .head _, .named resolved inside⟩
      · exact ⟨ty, .tail _ later, inside⟩
  | members _ ih =>
      intro leaf visited
      obtain ⟨ty, listed, inside⟩ := ih leaf visited
      rcases List.mem_append.mp listed with first | later
      · exact ⟨_, .head _, .member first inside⟩
      · exact ⟨ty, .tail _ later, inside⟩
  | leaf single unnamed _ ih =>
      intro leaf visited
      rcases List.mem_cons.mp visited with rfl | later
      · exact ⟨_, .head _, .leaf single unnamed⟩
      · obtain ⟨ty, listed, inside⟩ := ih leaf later
        exact ⟨ty, .tail _ listed, inside⟩

end Visits

section Coverage

variable {aliases : AliasMap} {leaves more : List Ty} {seen later : List String} {ty leaf : Ty}

/-- Everything that a type is an intersection of was visited, or is a name that was seen. -/
inductive Covered (leaves : List Ty) (seen : List String) : Ty → Prop
  | members {members : List Ty} (each : ∀ m ∈ members, Covered leaves seen m) :
    Covered leaves seen (.intersectionOf members)
  | ref {name : String} (known : name ∈ seen) : Covered leaves seen (.ref name)
  | leaf {ty : Ty} (single : ty.isIntersection = false) (unnamed : ty.refName? = none)
    (visited : ty ∈ leaves) : Covered leaves seen ty

/-- What a name stands for is covered, or it is the leaf at which the search for it ended. -/
def Opened (aliases : AliasMap) (leaves : List Ty) (seen : List String) (name : String) : Prop :=
  (∃ other, aliases.resolve (.ref name) = .ref other ∧ .ref other ∈ leaves) ∨
    (aliases.resolve (.ref name)).refName? = none ∧
      Covered leaves seen (aliases.resolve (.ref name))

theorem Covered.mono (inLeaves : ∀ leaf ∈ leaves, leaf ∈ more) (covered : Covered leaves seen ty) :
    Covered more seen ty := by
  induction covered with
  | members _ ih => exact .members ih
  | ref known => exact .ref known
  | leaf single unnamed visited => exact .leaf single unnamed (inLeaves _ visited)

theorem Opened.mono {name : String} (inLeaves : ∀ leaf ∈ leaves, leaf ∈ more)
    (opened : Opened aliases leaves seen name) : Opened aliases more seen name := by
  rcases opened with ⟨other, resolved, visited⟩ | ⟨resolved, covered⟩
  · exact Or.inl ⟨other, resolved, inLeaves _ visited⟩
  · exact Or.inr ⟨resolved, covered.mono inLeaves⟩

/-- The names at the end of a walk: none is forgotten, the new ones were opened, and with them the
agenda is covered. -/
structure Closes (aliases : AliasMap) (seen : List String) (agenda leaves : List Ty)
    (later : List String) : Prop where
  grows : ∀ name ∈ seen, name ∈ later
  opened : ∀ name ∈ later, name ∈ seen ∨ Opened aliases leaves later name
  agenda : ∀ ty ∈ agenda, Covered leaves later ty

namespace Closes

variable {agenda : List Ty}

theorem mono (inLeaves : ∀ leaf ∈ leaves, leaf ∈ more)
    (closes : Closes aliases seen agenda leaves later) : Closes aliases seen agenda more later where
  grows := closes.grows
  opened name known := (closes.opened name known).imp_right (Opened.mono inLeaves)
  agenda ty listed := (closes.agenda ty listed).mono inLeaves

theorem cons (closes : Closes aliases seen agenda leaves later) (covered : Covered leaves later ty) :
    Closes aliases seen (ty :: agenda) leaves later :=
  { closes with agenda := List.forall_mem_cons.mpr ⟨covered, closes.agenda⟩ }

/-- A name that is new at the start of a walk is opened by it. -/
theorem name {name : String} (closes : Closes aliases (name :: seen) agenda leaves later)
    (opened : Opened aliases leaves later name) :
    Closes aliases seen (.ref name :: agenda) leaves later := by
  have known : Covered leaves later (.ref name) := .ref (closes.grows name (.head _))
  refine cons ⟨fun other old => closes.grows other (.tail _ old), ?_, closes.agenda⟩ known
  intro other known
  rcases closes.opened other known with old | new
  · rcases List.mem_cons.mp old with rfl | older
    · exact Or.inr opened
    · exact Or.inl older
  · exact Or.inr new

end Closes

theorem Visits.closes {agenda : List Ty} (visits : Visits aliases seen agenda leaves) :
    ∃ later, Closes aliases seen agenda leaves later := by
  induction visits with
  | @done seen => exact ⟨seen, fun _ known => known, fun _ known => Or.inl known, nofun⟩
  | again known _ ih =>
      obtain ⟨later, closes⟩ := ih
      exact ⟨later, closes.cons (.ref (closes.grows _ known))⟩
  | @stuck _ name other _ leaves _ resolved _ ih =>
      obtain ⟨later, closes⟩ := ih
      have wider : ∀ leaf ∈ leaves, leaf ∈ Ty.ref other :: leaves := fun _ => .tail _
      exact ⟨later, (closes.mono wider).name (Or.inl ⟨other, resolved, .head _⟩)⟩
  | named _ resolved _ ih =>
      obtain ⟨later, closes⟩ := ih
      obtain ⟨covered, rest⟩ := List.forall_mem_cons.mp closes.agenda
      exact ⟨later, Closes.name { closes with agenda := rest } (Or.inr ⟨resolved, covered⟩)⟩
  | members _ ih =>
      obtain ⟨later, closes⟩ := ih
      obtain ⟨each, rest⟩ := List.forall_mem_append.mp closes.agenda
      exact ⟨later, Closes.cons { closes with agenda := rest } (.members each)⟩
  | @leaf _ ty _ leaves single unnamed _ ih =>
      obtain ⟨later, closes⟩ := ih
      have wider : ∀ leaf ∈ leaves, leaf ∈ ty :: leaves := fun _ => .tail _
      exact ⟨later, (closes.mono wider).cons (.leaf single unnamed (.head _))⟩

/-- In a closed walk everything that is reached was visited. -/
theorem Covered.mem_of_leafOf (opened : ∀ name ∈ later, Opened aliases leaves later name)
    (inside : LeafOf aliases ty leaf) (covered : Covered leaves later ty) : leaf ∈ leaves := by
  induction inside with
  | member listed _ ih =>
      cases covered with
      | members each => exact ih (each _ listed)
      | leaf single => cases single
  | named resolved _ ih =>
      cases covered with
      | ref known =>
          rcases opened _ known with ⟨other, ends, _⟩ | ⟨_, inside⟩
          · rw [ends] at resolved
            cases resolved
          · exact ih inside
      | leaf _ unnamed => cases unnamed
  | stuck resolved =>
      cases covered with
      | ref known =>
          rcases opened _ known with ⟨other, ends, visited⟩ | ⟨unnamed, _⟩
          · cases resolved.symm.trans ends
            exact visited
          · rw [resolved] at unnamed
            cases unnamed
      | leaf _ unnamed => cases unnamed
  | leaf single unnamed =>
      cases covered with
      | members => cases single
      | ref => cases unnamed
      | leaf _ _ visited => exact visited

end Coverage

namespace AliasMap

/-- The number of definitions whose names were not seen. -/
def unseen (aliases : AliasMap) (seen : List String) : Nat :=
  (aliases.definitions.filter fun d => !seen.contains d.name).length

variable {aliases : AliasMap}

theorem unseen_mono {seen later : List String} (grows : ∀ name ∈ seen, name ∈ later) :
    aliases.unseen later ≤ aliases.unseen seen := by
  apply List.Sublist.length_le
  apply List.monotone_filter_right
  intro d new
  simp only [Bool.not_eq_true', List.contains_eq_mem, decide_eq_false_iff_not] at new ⊢
  exact fun known => new (grows d.name known)

theorem unseen_cons_lt {seen : List String} {name : String} (declared : aliases.contains name = true)
    (new : name ∉ seen) : aliases.unseen (name :: seen) < aliases.unseen seen := by
  obtain ⟨d, found⟩ := Option.isSome_iff_exists.mp declared
  have named : d.name = name := by simpa using List.find?_some found
  have listed : d ∈ aliases.definitions := List.mem_of_find?_eq_some found
  have parts : aliases.definitions.filter (fun e => !(name :: seen).contains e.name) =
      (aliases.definitions.filter fun e => !seen.contains e.name).filter fun e => e.name != name := by
    rw [List.filter_filter]
    congr 1
    funext e
    rw [List.contains_cons, Bool.not_or, bne]
  rw [unseen, unseen, parts]
  apply List.length_filter_lt_length_iff_exists.mpr
  refine ⟨d, List.mem_filter.mpr ⟨listed, ?_⟩, ?_⟩
  · simpa [named] using new
  · simp [named]

theorem expandLeaves_of_stuck {left : Nat} {seen : List String} {name other : String}
    (resolved : aliases.resolve (.ref name) = .ref other) :
    aliases.expandLeaves (left + 1) seen name = ([.ref other], seen) := by
  rw [expandLeaves, resolved]

theorem expandLeaves_of_resolved {left : Nat} {seen : List String} {name : String}
    (resolved : (aliases.resolve (.ref name)).refName? = none) :
    aliases.expandLeaves (left + 1) seen name =
      (aliases.resolve (.ref name)).leavesWith (aliases.expandLeaves left) seen := by
  rw [expandLeaves]
  split
  next other ends =>
    rw [ends] at resolved
    cases resolved
  next => rfl

/-- A walk through the members of an intersection goes on from the names they leave. -/
theorem visits_leavesOfAll {left : Nat} {tys : List Ty}
    (each : ∀ ty ∈ tys, ∀ seen, aliases.unseen seen ≤ left → ∀ agenda leaves,
      Visits aliases (ty.leavesWith (aliases.expandLeaves left) seen).2 agenda leaves →
      Visits aliases seen (ty :: agenda)
        ((ty.leavesWith (aliases.expandLeaves left) seen).1 ++ leaves))
    (seen : List String) (room : aliases.unseen seen ≤ left) {agenda leaves : List Ty}
    (rest : Visits aliases (Ty.leavesOfAll (aliases.expandLeaves left) seen tys).2 agenda leaves) :
    Visits aliases seen (tys ++ agenda)
      ((Ty.leavesOfAll (aliases.expandLeaves left) seen tys).1 ++ leaves) := by
  -- A walk may be followed by any agenda, so the other members stand on the agenda of the first.
  induction tys generalizing seen with
  | nil => exact rest
  | cons ty tys ih =>
      have collected := (leavesWith_collected (aliases.expandLeaves_collected left) ty seen).1
      have later := Nat.le_trans (unseen_mono collected.grows) room
      have others := ih (fun other listed => each other (.tail _ listed)) _ later rest
      have both := each ty (.head _) seen room _ _ others
      rwa [← List.append_assoc] at both

theorem visits_leavesWith {left : Nat}
    (expands : ∀ seen name, name ∉ seen →
      (aliases.contains name = true → aliases.unseen (name :: seen) < left) → ∀ agenda leaves,
      Visits aliases (aliases.expandLeaves left (name :: seen) name).2 agenda leaves →
      Visits aliases seen (.ref name :: agenda)
        ((aliases.expandLeaves left (name :: seen) name).1 ++ leaves))
    (ty : Ty) (seen : List String) (room : aliases.unseen seen ≤ left) (agenda leaves : List Ty)
    (rest : Visits aliases (ty.leavesWith (aliases.expandLeaves left) seen).2 agenda leaves) :
    Visits aliases seen (ty :: agenda)
      ((ty.leavesWith (aliases.expandLeaves left) seen).1 ++ leaves) := by
  induction ty using Ty.childrenInduction generalizing seen agenda leaves with
  | step ty ih =>
      cases ty with
      | intersectionOf members => exact .members (visits_leavesOfAll ih seen room rest)
      | ref name =>
          rw [Ty.leavesWith] at rest ⊢
          by_cases known : seen.contains name = true
          · rw [if_pos known] at rest ⊢
            exact .again (List.contains_iff_mem.mp known) rest
          · rw [if_neg known] at rest ⊢
            have new : name ∉ seen := by simpa using known
            refine expands seen name new (fun declared => ?_) agenda leaves rest
            exact Nat.lt_of_lt_of_le (unseen_cons_lt declared new) room
      | _ => exact .leaf rfl rfl rest

/-- There are as many expansions left as names that were not seen, so none is cut off. -/
theorem visits_expandLeaves (left : Nat) (seen : List String) (name : String) (new : name ∉ seen)
    (room : aliases.contains name = true → aliases.unseen (name :: seen) < left)
    (agenda leaves : List Ty)
    (rest : Visits aliases (aliases.expandLeaves left (name :: seen) name).2 agenda leaves) :
    Visits aliases seen (.ref name :: agenda)
      ((aliases.expandLeaves left (name :: seen) name).1 ++ leaves) := by
  induction left generalizing seen name agenda leaves with
  | zero =>
      have undeclared : aliases.contains name = false := by
        by_contra declared
        exact absurd (room (by simpa using declared)) (Nat.not_lt_zero _)
      exact .stuck new (resolve_of_undeclared undeclared) rest
  | succ left ih =>
      cases resolved : (aliases.resolve (.ref name)).refName? with
      | some other =>
          have ends := eq_ref_of_refName? resolved
          rw [expandLeaves_of_stuck ends] at rest ⊢
          exact .stuck new ends rest
      | none =>
          have declared : aliases.contains name = true := by
            by_contra missing
            rw [resolve_of_undeclared (by simpa using missing)] at resolved
            cases resolved
          rw [expandLeaves_of_resolved resolved] at rest ⊢
          refine .named new resolved (visits_leavesWith ih _ _ ?_ agenda leaves rest)
          exact Nat.le_of_lt_succ (room declared)

/-- The leaves of a type are visited in the order in which they are listed. -/
theorem visits_leaves (aliases : AliasMap) (ty : Ty) : Visits aliases [] [ty] (aliases.leaves ty) := by
  have room : aliases.unseen [] ≤ aliases.size + 1 :=
    Nat.le_trans (List.length_filter_le _ _) (Nat.le_succ _)
  have visits := visits_leavesWith (visits_expandLeaves _) ty [] room [] [] .done
  rwa [List.append_nil] at visits

/-- The leaves are what is reached. -/
theorem mem_leaves_iff {ty leaf : Ty} : leaf ∈ aliases.leaves ty ↔ LeafOf aliases ty leaf := by
  have visits := aliases.visits_leaves ty
  constructor
  · intro visited
    obtain ⟨start, listed, inside⟩ := visits.leafOf leaf visited
    cases List.mem_singleton.mp listed
    exact inside
  · intro inside
    obtain ⟨later, closes⟩ := visits.closes
    have opened : ∀ name ∈ later, Opened aliases (aliases.leaves ty) later name := by
      intro name known
      exact (closes.opened name known).resolve_left List.not_mem_nil
    exact (closes.agenda ty (.head _)).mem_of_leafOf opened inside

end AliasMap

end StructuralTypes
