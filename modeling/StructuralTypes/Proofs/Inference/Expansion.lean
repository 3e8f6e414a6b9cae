import StructuralTypes.Proofs.Inference.Patterns
import StructuralTypes.Proofs.Ty.Nodes

/-!
Opening a name makes the pattern bigger, and the argument changes from one opening to the next. But
an argument is always a node of the types at hand or what is left of a union among these, so there are
only so many pairs of a name and an argument, and none is opened inside of itself. Between two
openings the pattern gets smaller.
-/

set_option autoImplicit false

namespace StructuralTypes

namespace Inference

variable {ctx : Context} {params : List String} {pattern arg : Ty} {m : Match}

section Parts

/-- What stands in an argument opposite to a part of the pattern. -/
inductive ArgPart (arg : Ty) : Ty → Prop
  | whole : ArgPart arg arg
  | child {child : Ty} (single : arg.isUnion = false) (member : child ∈ arg.children) :
    ArgPart arg child
  | rest {some : List Ty} (part : some.Sublist arg.unionMembers) : ArgPart arg (.union some)

theorem ArgPart.leftover {tys : List Ty} {part : Ty} (keywords : .any ∈ tys ∧ .never ∈ tys)
    (stands : ArgPart arg part) (leftover : Ty.Leftover tys arg) : Ty.Leftover tys part := by
  cases stands with
  | whole => exact leftover
  | child single member => exact leftover.child single member
  | rest some => exact leftover.union keywords some

/-- A part of a pattern, with a part of the argument. -/
structure PartOf (pattern arg : Ty) (m : Match) : Prop where
  pattern : m.pattern ∈ pattern.children
  arg : ArgPart arg m.arg

theorem parts_of_asShape? {ty : Ty} {shape : Shape Ty} (shaped : ty.asShape? = some shape) :
    shape.parts = ty.children ∧ ty.isUnion = false := by
  cases ty with
  | object own =>
      cases shaped
      exact ⟨rfl, rfl⟩
  | record key value =>
      cases shaped
      exact ⟨rfl, rfl⟩
  | _ => cases shaped

theorem shapeMatches_parts {p a : Shape Ty} :
    ∀ m ∈ shapeMatches p a, m.pattern ∈ p.parts ∧ m.arg ∈ a.parts := by
  intro m member
  rcases List.mem_append.mp member with named | indexed
  · obtain ⟨slot, declared, found⟩ := List.mem_filterMap.mp named
    rw [propertyMatch?] at found
    split at found
    case h_1 property own =>
      cases found
      exact ⟨Ty.property_mem_children declared,
        Ty.property_mem_children (mem_names_of_findProperty? own).1⟩
    case h_2 =>
      obtain ⟨index, own, rfl⟩ := Option.map_eq_some_iff.mp found
      exact ⟨Ty.property_mem_children declared, Ty.indexValue_mem_children own⟩
  · obtain ⟨index, declared, found⟩ := List.mem_flatMap.mp indexed
    have index? : p.index = some index := by simpa using declared
    rw [indexMatches] at found
    split at found
    case h_1 own known =>
      rcases List.mem_cons.mp found with rfl | last
      · exact ⟨Ty.indexKey_mem_children index?, Ty.indexKey_mem_children known⟩
      · cases List.mem_singleton.mp last
        exact ⟨Ty.indexValue_mem_children index?, Ty.indexValue_mem_children known⟩
    case h_2 =>
      obtain ⟨q, unnamed, rfl⟩ := List.mem_map.mp found
      exact ⟨Ty.indexValue_mem_children index?,
        Ty.property_mem_children (List.mem_of_mem_filter unnamed)⟩

theorem unionMatches_parts {members : List Ty} :
    ∀ m ∈ (unionMatches ctx params members arg).value,
      m.pattern ∈ members ∧ ArgPart arg m.arg := by
  intro m member
  rw [unionMatches] at member
  split at member
  case h_1 openMember single =>
    simp only [Limited.value_bind, Limited.value_filter, Limited.value_pure] at member
    split at member
    · cases member
    · cases List.mem_singleton.mp member
      refine ⟨?_, .rest List.filter_sublist⟩
      apply List.mem_of_mem_filter
      rw [single]
      exact .head _
  case h_2 => cases member

theorem parts_partOf (pattern arg : Ty) :
    ∀ m ∈ (parts ctx params pattern arg).value, PartOf pattern arg m := by
  intro m member
  unfold parts at member
  split at member
  case h_1 =>
    cases List.mem_singleton.mp member
    exact ⟨.head _, .child rfl (.head _)⟩
  case h_2 =>
    obtain ⟨a, listed, rfl⟩ := List.mem_map.mp member
    exact ⟨.head _, .child rfl listed⟩
  case h_3 =>
    obtain ⟨⟨p, a⟩, paired, rfl⟩ := List.mem_map.mp member
    exact ⟨(List.of_mem_zip paired).1, .child rfl (List.of_mem_zip paired).2⟩
  case h_4 p a =>
    rcases List.mem_append.mp member with param | last
    · obtain ⟨⟨x, y⟩, paired, rfl⟩ := List.mem_map.mp param
      exact ⟨Ty.param_mem_children (List.of_mem_zip paired).1,
        .child rfl (Ty.param_mem_children (List.of_mem_zip paired).2)⟩
    · cases List.mem_singleton.mp last
      exact ⟨Ty.result_mem_children p, .child rfl (Ty.result_mem_children a)⟩
  case h_5 =>
    obtain ⟨listed, part⟩ := unionMatches_parts m member
    exact ⟨listed, part⟩
  case h_6 =>
    obtain ⟨p, listed, rfl⟩ := List.mem_map.mp member
    exact ⟨listed, .whole⟩
  case h_7 =>
    cases List.mem_singleton.mp member
    exact ⟨.head _, .child rfl (.head _)⟩
  case h_8 =>
    split at member
    case h_1 p a shapedP shapedA =>
      obtain ⟨inPattern, inArg⟩ := shapeMatches_parts m member
      rw [(parts_of_asShape? shapedP).1] at inPattern
      rw [(parts_of_asShape? shapedA).1] at inArg
      exact ⟨inPattern, .child (parts_of_asShape? shapedA).2 inArg⟩
    case h_2 => cases member

end Parts

section Walk

variable {α β : Type} {before after : List Match}

/-- The walk gives a result, with some names open before and after. -/
def Returns (x : MatchM α) (before : List Match) (a : α) (after : List Match) : Prop :=
  ((x.run before).run).value = some (a, after)

theorem Returns.bind {x : MatchM α} {f : α → MatchM β} {between : List Match} {a : α} {b : β}
    (first : Returns x before a between) (next : Returns (f a) between b after) :
    Returns (x >>= f) before b after := by
  have unfolded : ((x >>= f).run before).run =
      ((x.run before >>= fun r => (f r.1).run r.2).run) := rfl
  rw [Returns, unfolded, OptionT.run_bind, Option.elimM, Limited.value_bind, first]
  exact next

theorem Returns.pure (a : α) : Returns (Pure.pure a) before a before := rfl

theorem Returns.lift (x : Limited α) : Returns (liftM x) before x.value before := rfl

/-- With enough steps a walk gives one result, and the open names are back as they were. -/
def Ends (walk : Nat → MatchM α) (bound : Nat) (expanding : List Match) : Prop :=
  ∃ a, ∀ steps, bound ≤ steps → Returns (walk steps) expanding a expanding

theorem Ends.mono {walk : Nat → MatchM α} {bound more : Nat} {expanding : List Match}
    (ends : Ends walk bound expanding) (enough : bound ≤ more) : Ends walk more expanding := by
  obtain ⟨a, found⟩ := ends
  exact ⟨a, fun steps within => found steps (Nat.le_trans enough within)⟩

theorem Ends.of_succ {walk : Nat → MatchM α} {bound : Nat} {expanding : List Match} {a : α}
    (found : ∀ fewer, bound ≤ fewer → Returns (walk (fewer + 1)) expanding a expanding) :
    Ends walk (bound + 1) expanding := by
  refine ⟨a, fun steps enough => ?_⟩
  obtain ⟨fewer, rfl⟩ := Nat.exists_eq_add_one.mpr (Nat.lt_of_lt_of_le (Nat.succ_pos _) enough)
  exact found fewer (Nat.le_of_succ_le_succ enough)

theorem observeEach_ends {observe : Nat → Match → MatchM (List Observation)} {bound : Nat}
    {expanding ms : List Match} (each : ∀ m ∈ ms, Ends (observe · m) bound expanding) :
    Ends (fun steps => observeEach (observe steps) ms) bound expanding := by
  induction ms with
  | nil => exact ⟨[], fun _ _ => .pure []⟩
  | cons m ms ih =>
      obtain ⟨first, here⟩ := each m (.head _)
      obtain ⟨rest, later⟩ := ih fun other listed => each other (.tail _ listed)
      refine ⟨first ++ rest, fun steps enough => ?_⟩
      exact (here steps enough).bind ((later steps enough).bind (.pure _))

/-- One more step goes to the parts. -/
theorem observeWithin_ends_of_parts {bound : Nat} {expanding : List Match}
    (placed : pattern.refName? = none)
    (each : ∀ m ∈ (parts ctx params pattern (ctx.aliases.resolve arg)).value,
      Ends (observeWithin ctx params · m) bound expanding) :
    Ends (observeWithin ctx params · ⟨pattern, arg⟩) (bound + 1) expanding := by
  obtain ⟨found, ends⟩ := observeEach_ends each
  refine .of_succ (a := found) fun fewer enough => ?_
  rw [observeWithin_placed placed]
  exact (Returns.lift _).bind (ends fewer enough)

theorem match_beq_self (m : Match) : (m == m) = true :=
  Bool.and_eq_true_iff.mpr ⟨Ty.same_self m.pattern, Ty.same_self m.arg⟩

theorem observeWithin_ends_of_param {name : String} {i : Nat} {expanding : List Match}
    (known : params.idxOf? name = some i) :
    Ends (observeWithin ctx params · ⟨.ref name, arg⟩) 1 expanding := by
  refine .of_succ (a := [⟨i, arg⟩]) fun fewer _ => ?_
  rw [observeWithin]
  dsimp only
  rw [known]
  exact .pure _

section Names

variable {name : String} {steps : Nat} (unknown : params.idxOf? name = none)

include unknown

theorem observeWithin_name :
    observeWithin ctx params (steps + 1) ⟨.ref name, arg⟩ = (do
      let resolved := ctx.aliases.resolve (.ref name)
      if resolved.same (.ref name) then return []
      if (← get).contains ⟨.ref name, arg⟩ then return []
      modify (⟨.ref name, arg⟩ :: ·)
      let found ← observeWithin ctx params steps ⟨resolved, arg⟩
      modify (·.erase ⟨.ref name, arg⟩)
      return found) := by
  rw [observeWithin]
  dsimp only
  rw [unknown]

/-- A name that stands for nothing else, or that is open, says nothing. -/
theorem observeWithin_skipped
    (skipped : (ctx.aliases.resolve (.ref name)).same (.ref name) = true ∨
      before.contains ⟨.ref name, arg⟩ = true) :
    Returns (observeWithin ctx params (steps + 1) ⟨.ref name, arg⟩) before [] before := by
  rw [observeWithin_name unknown]
  dsimp only
  split
  case isTrue => exact .pure []
  case isFalse opens =>
    refine Returns.bind (a := before) rfl ?_
    rw [if_pos (skipped.resolve_left opens)]
    exact .pure []

/-- A name is opened and closed again. -/
theorem observeWithin_opened {found : List Observation}
    (opens : (ctx.aliases.resolve (.ref name)).same (.ref name) = false)
    (new : before.contains ⟨.ref name, arg⟩ = false)
    (inner : Returns (observeWithin ctx params steps ⟨ctx.aliases.resolve (.ref name), arg⟩)
      (⟨.ref name, arg⟩ :: before) found (⟨.ref name, arg⟩ :: before)) :
    Returns (observeWithin ctx params (steps + 1) ⟨.ref name, arg⟩) before found before := by
  have closes : (⟨.ref name, arg⟩ :: before : List Match).erase ⟨.ref name, arg⟩ = before := by
    rw [List.erase_cons, if_pos (match_beq_self _)]
  rw [observeWithin_name unknown]
  dsimp only
  rw [opens, if_neg Bool.false_ne_true]
  refine Returns.bind (a := before) rfl ?_
  rw [new, if_neg Bool.false_ne_true]
  refine Returns.bind (a := ()) rfl (inner.bind ?_)
  exact Returns.bind (a := ()) (congrArg (fun after => some ((), after)) closes) (.pure found)

/-- One more step goes to what a name stands for, if it is not open. -/
theorem observeWithin_ends_of_name {bound : Nat} {expanding : List Match}
    (opened : (ctx.aliases.resolve (.ref name)).same (.ref name) = false →
      expanding.contains ⟨.ref name, arg⟩ = false →
      Ends (observeWithin ctx params · ⟨ctx.aliases.resolve (.ref name), arg⟩) bound
        (⟨.ref name, arg⟩ :: expanding)) :
    Ends (observeWithin ctx params · ⟨.ref name, arg⟩) (bound + 1) expanding := by
  by_cases skipped : (ctx.aliases.resolve (.ref name)).same (.ref name) = true ∨
      expanding.contains ⟨.ref name, arg⟩ = true
  · exact .of_succ fun _ _ => observeWithin_skipped unknown skipped
  · rw [not_or, Bool.not_eq_true, Bool.not_eq_true] at skipped
    obtain ⟨found, ends⟩ := opened skipped.1 skipped.2
    exact .of_succ fun fewer enough =>
      observeWithin_opened unknown skipped.1 skipped.2 (ends fewer enough)

end Names

end Walk

section Openings

theorem declared_of_opens {name : String}
    (opens : (ctx.aliases.resolve (.ref name)).same (.ref name) = false) :
    ctx.aliases.contains name = true := by
  by_contra undeclared
  rw [AliasMap.resolve_of_undeclared (by simpa using undeclared), Ty.same_self] at opens
  cases opens

/-- The pairs of a name and an argument that can be open, for arguments that come from some types. -/
def candidates (ctx : Context) (args : List Ty) : List Match :=
  ctx.aliases.definitions.flatMap fun d => (Ty.leftovers args).map fun a => ⟨.ref d.name, a⟩

theorem length_candidates (ctx : Context) (args : List Ty) :
    (candidates ctx args).length = ctx.aliases.size * (Ty.leftovers args).length := by
  simp [candidates, AliasMap.size, List.length_flatMap, List.map_const']

theorem mem_candidates {args : List Ty} {name : String} (declared : ctx.aliases.contains name = true)
    (leftover : Ty.Leftover args arg) : ⟨.ref name, arg⟩ ∈ candidates ctx args := by
  obtain ⟨d, found⟩ := Option.isSome_iff_exists.mp declared
  have named : d.name = name := by simpa using List.find?_some found
  refine List.mem_flatMap.mpr ⟨d, List.mem_of_find?_eq_some found, ?_⟩
  exact List.mem_map.mpr ⟨arg, leftover.mem_leftovers, by rw [named]⟩

/-- The number of pairs that are not open. -/
def closed (pairs expanding : List Match) : Nat := pairs.countP fun m => !expanding.contains m

theorem closed_cons_lt {pairs expanding : List Match} (listed : m ∈ pairs)
    (new : expanding.contains m = false) : closed pairs (m :: expanding) < closed pairs expanding := by
  have parts : pairs.filter (fun n => !(m :: expanding).contains n) =
      (pairs.filter fun n => !expanding.contains n).filter fun n => !(n == m) := by
    rw [List.filter_filter]
    congr 1
    funext n
    rw [List.contains_cons, Bool.not_or]
  rw [closed, closed, List.countP_eq_length_filter, List.countP_eq_length_filter, parts]
  apply List.length_filter_lt_length_iff_exists.mpr
  refine ⟨m, List.mem_filter.mpr ⟨listed, ?_⟩, ?_⟩
  · rw [new]
    rfl
  · rw [match_beq_self]
    exact Bool.false_ne_true

end Openings

section Termination

/-- The types that everything in a walk comes from. -/
def roots (ctx : Context) (m : Match) : List Ty :=
  .any :: .never :: m.pattern :: m.arg :: ctx.aliases.definitions.map (·.body)

theorem sizeAll_roots (ctx : Context) (m : Match) :
    Ty.sizeAll (roots ctx m) = m.pattern.size + m.arg.size + ctx.aliases.bodySize + 2 := by
  simp only [roots, Ty.sizeAll, AliasMap.bodySize, Ty.any, Ty.never, Ty.size]
  omega

theorem body_mem_roots {d : AliasDefinition} (start : Match) (listed : d ∈ ctx.aliases.definitions) :
    d.body ∈ roots ctx start :=
  List.mem_append_right [.any, .never, start.pattern, start.arg] (List.mem_map_of_mem listed)

/-- A match that a walk can come to. -/
structure Reached (ctx : Context) (start m : Match) : Prop where
  pattern : m.pattern ∈ (roots ctx start).flatMap Ty.nodes
  arg : Ty.Leftover (roots ctx start) m.arg

namespace Reached

variable {start : Match}

theorem self (start : Match) : Reached ctx start start where
  pattern := List.mem_flatMap.mpr ⟨start.pattern, by simp [roots], start.pattern.self_mem_nodes⟩
  arg := .of_mem (by simp [roots])

theorem size_le (reached : Reached ctx start ⟨pattern, arg⟩) :
    pattern.size ≤ Ty.sizeAll (roots ctx start) := by
  rw [← Ty.length_nodes, ← Ty.length_flatMap_nodes]
  exact (Ty.nodes_sublist_of_mem_flatMap reached.pattern).length_le

theorem resolvePattern (reached : Reached ctx start ⟨pattern, arg⟩) :
    Reached ctx start ⟨ctx.aliases.resolve pattern, arg⟩ where
  pattern := AliasMap.resolve_induction (· ∈ (roots ctx start).flatMap Ty.nodes)
    (fun d listed => List.mem_flatMap.mpr ⟨d.body, body_mem_roots start listed, d.body.self_mem_nodes⟩)
    reached.pattern
  arg := reached.arg

theorem resolveArg (reached : Reached ctx start ⟨pattern, arg⟩) :
    Reached ctx start ⟨pattern, ctx.aliases.resolve arg⟩ where
  pattern := reached.pattern
  arg := AliasMap.resolve_induction (Ty.Leftover (roots ctx start))
    (fun _ listed => .of_mem (body_mem_roots start listed)) reached.arg

theorem part (reached : Reached ctx start ⟨pattern, arg⟩) (part : PartOf pattern arg m) :
    Reached ctx start m where
  pattern := Ty.partsListed_flatMap_nodes _ pattern reached.pattern _ part.pattern
  arg := part.arg.leftover ⟨by simp [roots], by simp [roots]⟩ reached.arg

/-- From every match that is reached the walk comes to an end. -/
theorem ends (reached : Reached ctx start m) (left : Nat) {expanding : List Match}
    (room : closed (candidates ctx (roots ctx start)) expanding ≤ left) :
    Ends (observeWithin ctx params · m)
      (left * (Ty.sizeAll (roots ctx start) + 1) + m.pattern.size) expanding := by
  obtain ⟨pattern, arg⟩ := m
  dsimp only
  -- The outer induction is on the pairs that are left to open, the inner one on the pattern.
  induction left using Nat.strongRecOn generalizing pattern arg expanding with
  | ind left outer =>
      induction pattern using Ty.childrenInduction generalizing arg with
      | step pattern inner =>
          rw [Ty.size_eq, ← Nat.add_assoc]
          cases named : pattern.refName? with
          | none =>
              refine observeWithin_ends_of_parts named fun m listed => ?_
              have part := parts_partOf _ _ m listed
              refine (inner m.pattern part.pattern m.arg (reached.resolveArg.part part)).mono ?_
              exact Nat.add_le_add_left (Ty.size_le_sizeAll part.pattern) _
          | some name =>
              cases AliasMap.eq_ref_of_refName? named
              cases known : params.idxOf? name with
              | some i =>
                  exact (observeWithin_ends_of_param known).mono (Nat.succ_le_succ (Nat.zero_le _))
              | none =>
                  refine observeWithin_ends_of_name known fun opens new => ?_
                  have listed := mem_candidates (declared_of_opens opens) reached.arg
                  have fewer := Nat.lt_of_lt_of_le (closed_cons_lt listed new) room
                  obtain ⟨less, rfl⟩ := Nat.exists_eq_add_one_of_ne_zero (Nat.ne_zero_of_lt fewer)
                  have opened := reached.resolvePattern
                  refine (outer less (Nat.lt_succ_self _) (Nat.le_of_lt_succ fewer) _ arg opened).mono ?_
                  have size := opened.size_le
                  rw [Nat.succ_mul]
                  omega

end Reached

/-- The steps that a walk is given are enough for every pair to be opened, one inside of the other, and
to go down a pattern each time. -/
theorem enough_steps (ctx : Context) (start : Match) :
    (candidates ctx (roots ctx start)).length * (Ty.sizeAll (roots ctx start) + 1) +
      start.pattern.size ≤ observeSteps ctx start := by
  have pattern := start.pattern.size_pos
  have arg := start.arg.size_pos
  rw [length_candidates, Ty.length_leftovers, sizeAll_roots, observeSteps]
  generalize total : start.pattern.size + start.arg.size + ctx.aliases.bodySize = nodes
  have unions : nodes + 2 + 2 ^ (nodes + 2) ≤ 2 ^ (nodes + 3) := by
    have fewer := Nat.lt_two_pow_self (n := nodes + 2)
    rw [Nat.pow_succ 2 (nodes + 2)]
    omega
  have each : (nodes + 2 + 2 ^ (nodes + 2)) * (nodes + 2 + 1) ≤ 2 ^ (2 * nodes + 2) * (nodes + 2) :=
    calc (nodes + 2 + 2 ^ (nodes + 2)) * (nodes + 2 + 1)
      _ ≤ 2 ^ (nodes + 3) * (2 * (nodes + 2)) := Nat.mul_le_mul unions (by omega)
      _ = 2 ^ (nodes + 4) * (nodes + 2) := by rw [← Nat.mul_assoc, ← Nat.pow_succ]
      _ ≤ 2 ^ (2 * nodes + 2) * (nodes + 2) :=
        Nat.mul_le_mul_right _ (Nat.pow_le_pow_right Nat.two_pos (by omega))
  calc ctx.aliases.size * (nodes + 2 + 2 ^ (nodes + 2)) * (nodes + 2 + 1) + start.pattern.size
    _ ≤ ctx.aliases.size * (2 ^ (2 * nodes + 2) * (nodes + 2)) + (nodes + 2) := by
      rw [Nat.mul_assoc]
      exact Nat.add_le_add (Nat.mul_le_mul_left _ each) (by omega)
    _ = (ctx.aliases.size * 2 ^ (2 * nodes + 2) + 1) * (nodes + 2) := by
      rw [Nat.add_mul, Nat.mul_assoc, Nat.one_mul]

/-- Inference comes to an end, however the definitions recur. With more steps than it is given it says
the same, and the names that are open before it are open after it. -/
theorem infer_ends (ctx : Context) (s : Inference) (pattern arg : Ty) :
    ∃ said : List Match → List Observation,
      (∀ expanding more,
        ((observeWithin ctx s.names (observeSteps ctx ⟨pattern, arg⟩ + more) ⟨pattern, arg⟩).run
          expanding).run.value = some (said expanding, expanding)) ∧
      (s.infer ctx pattern arg).value = (s.observeAll ctx (said [])).value := by
  have ends (expanding : List Match) : Ends (observeWithin ctx s.names · ⟨pattern, arg⟩)
      (observeSteps ctx ⟨pattern, arg⟩) expanding :=
    ((Reached.self _).ends _ List.countP_le_length).mono (enough_steps ctx ⟨pattern, arg⟩)
  obtain ⟨said, found⟩ := Classical.axiomOfChoice ends
  refine ⟨said, fun expanding more => found expanding _ (Nat.le_add_right _ _), ?_⟩
  have first : ((observeWithin ctx s.names (observeSteps ctx ⟨pattern, arg⟩) ⟨pattern, arg⟩).run
      []).run.value = some (said [], []) := found [] _ (Nat.le_refl _)
  rw [infer, Limited.value_bind, observations, Limited.value_bind, first]
  rfl

end Termination

end Inference

end StructuralTypes
