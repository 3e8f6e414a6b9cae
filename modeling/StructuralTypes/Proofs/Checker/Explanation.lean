import StructuralTypes.Proofs.Checker.Reasons
import StructuralTypes.Proofs.Checker.Reuse

/-!
An explanation asks about the parts of the two types one at a time, on new walks, while the refusal
came from one walk that was inside of the pair all the time. Several reasons are given only because
no other one was found. Both are in order because answers without a limit are those of derivations:
were all parts derived, the pair would be accepted.
-/

set_option autoImplicit false

namespace StructuralTypes

/-- A walk of a checker between two questions that no limit has refused yet. -/
structure Unhindered (ctx : Context) (walk : Walk Query) : Prop extends Idle ctx walk where
  passed : walk.exceeded = false

theorem Idle.room {ctx : Context} {walk : Walk Query} (idle : Idle ctx walk) :
    walk.Room ctx.levels where
  balanced := by
    rw [idle.depth, idle.visiting]
    rfl
  limited := by
    rw [idle.depth]
    exact Nat.zero_le _
  enough := by
    rw [idle.depth, idle.limits]
    exact Nat.lt_succ_self _

namespace CheckM

variable {ctx : Context} {α β : Type}

/-- Between two questions, and unless it hits a limit, the computation gives a result of which
`post` holds, and leaves the checker between two questions. -/
def Yields (ctx : Context) (x : CheckM α) (post : α → Prop) : Prop :=
  ∀ walk, Unhindered ctx walk → (x.run walk).cut = false →
    post (x.run walk).value.1 ∧ Unhindered ctx (x.run walk).value.2

/-- The computation tells whether `P` holds. -/
def Decides (ctx : Context) (x : CheckM Bool) (P : Prop) : Prop :=
  Yields ctx x fun answer => answer = true ↔ P

namespace Yields

variable {post : β → Prop}

theorem pure {post : α → Prop} {a : α} (holds : post a) : Yields ctx (Pure.pure a) post :=
  fun _ idle _ => ⟨holds, idle⟩

theorem bind {x : CheckM α} {f : α → CheckM β} {mid : α → Prop} (first : Yields ctx x mid)
    (rest : ∀ a, mid a → Yields ctx (f a) post) : Yields ctx (x >>= f) post := by
  intro walk idle finished
  change ((x.run walk).cut || ((f (x.run walk).value.1).run (x.run walk).value.2).cut) = false
    at finished
  rw [Bool.or_eq_false_iff] at finished
  obtain ⟨holds, between⟩ := first walk idle finished.1
  exact rest _ holds _ between finished.2

theorem mono {x : CheckM β} {weaker : β → Prop} (yields : Yields ctx x post)
    (implies : ∀ b, post b → weaker b) : Yields ctx x weaker := by
  intro walk idle finished
  obtain ⟨holds, after⟩ := yields walk idle finished
  exact ⟨implies _ holds, after⟩

theorem test {x : CheckM Bool} {P : Prop} {yes no : CheckM β} (first : Decides ctx x P)
    (accepted : P → Yields ctx yes post) (refused : ¬ P → Yields ctx no post) :
    Yields ctx (x >>= fun answer => if answer = true then yes else no) post := by
  refine bind first fun answer decided => ?_
  cases answer with
  | true => exact accepted (decided.mp rfl)
  | false => exact refused fun holds => Bool.noConfusion (decided.mpr holds)

theorem option {x : CheckM (Option α)} {f : Option α → CheckM β} {mid : Option α → Prop}
    (first : Yields ctx x mid) (none : mid none → Yields ctx (f none) post)
    (some : ∀ a, mid (some a) → Yields ctx (f (some a)) post) : Yields ctx (x >>= f) post := by
  refine bind first fun found? holds => ?_
  cases found? with
  | none => exact none holds
  | some a => exact some a holds

end Yields

theorem Decides.congr {x : CheckM Bool} {P Q : Prop} (decides : Decides ctx x P) (same : P ↔ Q) :
    Decides ctx x Q := by
  intro walk idle finished
  obtain ⟨answered, after⟩ := decides walk idle finished
  exact ⟨answered.trans same, after⟩

/-- A comparison between two questions finds a derivation, if there is one. -/
theorem step_decides (ctx : Context) (value target : Ty) :
    Decides ctx (step ctx value target) (ctx.aliases.Derives value target) := by
  intro walk idle finished
  have after := Returns.step value target walk idle.toIdle
  refine ⟨⟨fun accepted => ?_, fun derived => ?_⟩, after, finished⟩
  · have told : (ctx.check ctx.levels ⟨value, target⟩ walk).1 = true := accepted
    have found := ctx.derivable_of_check told
    rw [idle.visiting] at found
    exact found
  · rcases ctx.accepts_of_derivable derived ctx.levels walk idle.toIdle.room with yes | cut
    · exact yes
    · exact absurd (finished.symm.trans cut) Bool.noConfusion

theorem isCompatible_decides (ctx : Context) (value target : Ty) :
    Decides ctx (isCompatible ctx value target) (ctx.aliases.Derives value target) := by
  intro walk idle finished
  rw [isCompatible_run idle.toIdle] at finished ⊢
  exact step_decides ctx value target ctx.walk ⟨.new ctx, rfl⟩ finished

theorem isIdentical_decides (ctx : Context) (a b : Ty) :
    Decides ctx (isIdentical ctx a b) (ctx.aliases.DerivesBoth a b) := by
  unfold isIdentical
  by_cases same : a.same b = true
  · rw [if_pos same]
    exact .pure (iff_of_true rfl (Or.inl same))
  · rw [if_neg same]
    refine .test (step_decides ctx a b) (fun forth => ?_) fun missing => .pure ?_
    · refine (step_decides ctx b a).congr ⟨fun back => Or.inr ⟨forth, back⟩, fun both => ?_⟩
      exact (both.resolve_left same).2
    · refine iff_of_false Bool.noConfusion fun both => ?_
      exact missing (both.resolve_left same).1

section Search

variable {holds : α → Prop} {accepts : α → CheckM Bool}

/-- A search finds the first item that is refused, or all items are accepted. -/
def Finds (holds : α → Prop) (as : List α) : Option α → Prop
  | none => ∀ a ∈ as, holds a
  | some a => ∃ i, First holds (¬ holds ·) as i a

theorem firstRefused_yields (each : ∀ a, Decides ctx (accepts a) (holds a)) (as : List α) :
    Yields ctx (firstRefused accepts as) (Finds holds as) := by
  induction as with
  | nil => exact .pure fun a listed => by cases listed
  | cons a as ih =>
      unfold firstRefused
      refine .test (each a) (fun accepted => ?_) fun refused => .pure ?_
      · refine ih.mono fun found? found => ?_
        cases found? with
        | none => exact List.forall_mem_cons.mpr ⟨accepted, found⟩
        | some b =>
            obtain ⟨i, first⟩ := found
            have earlier := List.forall_mem_cons.mpr ⟨accepted, first.earlier⟩
            exact ⟨i + 1, first.here, earlier, first.fails⟩
      · exact ⟨0, rfl, fun b listed => (by cases listed), refused⟩

/-- A search for a pair tells its position. -/
def FindsPair (holds : Ty → Ty → Prop) (pairs : List (Ty × Ty)) : Option ((Ty × Ty) × Nat) → Prop
  | none => ∀ p ∈ pairs, holds p.1 p.2
  | some (p, i) => First (fun p => holds p.1 p.2) (fun p => ¬ holds p.1 p.2) pairs i p

theorem firstRefusedPair_yields {accepts : Ty → Ty → CheckM Bool} {holds : Ty → Ty → Prop}
    (each : ∀ s t, Decides ctx (accepts s t) (holds s t)) (sources targets : List Ty) :
    Yields ctx (firstRefusedPair accepts sources targets)
      (FindsPair holds (sources.zip targets)) := by
  have decides (item : (Ty × Ty) × Nat) :
      Decides ctx (accepts item.1.1 item.1.2) (holds item.1.1 item.1.2) := each _ _
  have search := firstRefused_yields decides (sources.zip targets).zipIdx
  refine search.mono fun found? found => ?_
  cases found? with
  | none =>
      intro p listed
      rw [← List.zipIdx_map_fst 0 (sources.zip targets)] at listed
      obtain ⟨item, inside, rfl⟩ := List.mem_map.mp listed
      exact found item inside
  | some item =>
      obtain ⟨i, first⟩ := found
      have position : item.2 = i := by
        have here := first.here
        rw [List.getElem?_zipIdx, Option.map_eq_some_iff] at here
        obtain ⟨p, -, rfl⟩ := here
        exact Nat.zero_add i
      have pairs : First (fun p => holds p.1 p.2) (fun p => ¬ holds p.1 p.2)
          ((sources.zip targets).zipIdx.map Prod.fst) i item.1 := First.map first
      rw [List.zipIdx_map_fst, ← position] at pairs
      exact pairs

end Search

/-- What it means that a value may go where a target is expected, or that it may not for the reason
that is given. -/
def Explains (aliases : AliasMap) (value target : Ty) : Option Mismatch → Prop
  | none => aliases.Derives value target
  | some reason => ¬ aliases.Derives value target ∧
      Genuine aliases (aliases.concrete value) (aliases.concrete target) reason

/-- The same of what is found out about the types of a property. -/
def Verdict.Holds (aliases : AliasMap) (value target : Ty) : Verdict → Prop
  | accepted => aliases.Derives value target
  | refused reason? => ¬ aliases.Derives value target ∧ ∀ reason, reason? = some reason →
      Genuine aliases (aliases.concrete value) (aliases.concrete target) reason

section Shapes

variable {explain : Ty → Ty → CheckM Verdict} {source shape : Shape Ty}
  (inner : ∀ value target,
    Yields ctx (explain value target) (Verdict.Holds ctx.aliases value target))

include inner

theorem explainProperty_yields {slot : Property Ty} (declared : slot ∈ shape.properties) :
    Yields ctx (explainProperty ctx explain source slot) fun
      | none => SlotMet ctx.aliases.Derives source slot
      | some reason => GenuineSlot ctx.aliases source shape reason := by
  unfold explainProperty SlotMet
  cases found : source.property? slot.name with
  | some property =>
      dsimp only
      by_cases refused : (property.optional && !slot.optional) = true
      · rw [if_pos refused]
        rw [Bool.and_eq_true, Bool.not_eq_true'] at refused
        exact .pure (.optional declared refused.2 found refused.1)
      · rw [if_neg refused]
        have allowed : property.optional = true → slot.optional = true := by
          simpa using refused
        refine .bind (inner property.ty slot.declared) fun verdict told => ?_
        cases verdict with
        | accepted => exact .pure ⟨allowed, told⟩
        | refused reason? =>
            refine .pure (.property declared found (AliasMap.unfit_of_not_derives told.1) ?_)
            exact fun reason kept => told.2 reason (Option.eq_some_of_filter_eq_some kept)
  | none =>
      dsimp only
      by_cases optional : slot.optional = true
      · rw [if_pos optional]
        exact .pure (Or.inl optional)
      · rw [if_neg optional]
        have required : slot.optional = false := Bool.eq_false_iff.mpr optional
        cases covers : source.index with
        | none => exact .pure (.missing declared required found covers)
        | some index =>
            refine .test (isCompatible_decides ctx index.value slot.ty) (fun derived => ?_)
              fun missing => ?_
            · exact .pure (Or.inr ⟨index, rfl, derived⟩)
            · have unfit := AliasMap.unfit_of_not_derives missing
              exact .pure (.covered declared required found covers unfit)

theorem explainProperties_yields (slots : List (Property Ty))
    (declared : slots ⊆ shape.properties) :
    Yields ctx (explainProperties ctx explain source slots) fun
      | none => ∀ slot ∈ slots, SlotMet ctx.aliases.Derives source slot
      | some reason => GenuineSlot ctx.aliases source shape reason := by
  induction slots with
  | nil => exact .pure fun slot listed => by cases listed
  | cons slot slots ih =>
      obtain ⟨here, rest⟩ := List.cons_subset.mp declared
      refine .option (explainProperty_yields inner here) (fun met => ?_) fun reason => .pure
      refine (ih rest).mono fun reason? explained => ?_
      cases reason? with
      | none => exact List.forall_mem_cons.mpr ⟨met, explained⟩
      | some reason => exact explained

omit inner in
/-- The value type of the source's own index signature is blamed without being asked about. -/
theorem explainIndex_yields {index : IndexSignature Ty} (declared : shape.index = some index)
    (slots : ∀ slot ∈ shape.properties, SlotMet ctx.aliases.Derives source slot)
    (unmet : ¬ ShapesMet ctx.aliases.Derives source shape) :
    Yields ctx (explainIndex ctx source index) fun reason? =>
      ∃ reason, reason? = some reason ∧ GenuineSlot ctx.aliases source shape reason := by
  have decides (property : Property Ty) :
      Decides ctx (isCompatible ctx property.ty index.value)
        (ctx.aliases.Derives property.ty index.value) := isCompatible_decides ctx _ _
  refine .option (firstRefused_yields decides source.properties) (fun properties => ?_)
    fun property found => ?_
  · have met (covered : ∀ own, source.index = some own →
        ctx.aliases.Derives own.value index.value) :
        ShapesMet ctx.aliases.Derives source shape := by
      refine ⟨slots, fun other found => ?_, fun other own found given => ?_⟩
      · cases declared.symm.trans found
        exact properties
      · cases declared.symm.trans found
        exact covered own given
    refine .pure ?_
    cases given : source.index with
    | none =>
        refine absurd (met fun own found => ?_) unmet
        cases given.symm.trans found
    | some own =>
        refine ⟨_, rfl, .index given declared (AliasMap.unfit_of_not_derives fun derived => ?_)⟩
        refine unmet (met fun other found => ?_)
        cases given.symm.trans found
        exact derived
  · obtain ⟨i, first⟩ := found
    exact .pure ⟨_, rfl, .indexed (List.mem_of_getElem? first.here) declared
      (AliasMap.unfit_of_not_derives first.fails)⟩

theorem explainShapes_yields (unmet : ¬ ShapesMet ctx.aliases.Derives source shape) :
    Yields ctx (explainShapes ctx explain source shape) fun reason? =>
      ∃ reason, reason? = some reason ∧ GenuineSlot ctx.aliases source shape reason := by
  refine .option (explainProperties_yields inner shape.properties (List.Subset.refl _))
    (fun slots => ?_) fun reason genuine => .pure ⟨reason, rfl, genuine⟩
  dsimp only
  split
  case h_1 index declared => exact explainIndex_yields declared slots unmet
  case h_2 plain =>
    refine absurd ⟨slots, fun index found => ?_, fun index own found => ?_⟩ unmet
    · cases plain.symm.trans found
    · cases plain.symm.trans found

end Shapes

theorem explainSignatures_yields {source target : Signature Ty}
    (unmet : ¬ ByShape ctx.aliases ctx.aliases.Derives (.function source) (.function target)) :
    Yields ctx (explainSignatures ctx source target)
      (Genuine ctx.aliases (.function source) (.function target)) := by
  unfold explainSignatures
  by_cases counts : source.params.length = target.params.length
  · rw [if_neg (not_not_intro counts)]
    refine .option (firstRefusedPair_yields (isIdentical_decides ctx) source.params target.params)
      (fun params => ?_) fun found first => ?_
    · refine .pure (.result (AliasMap.unfit_or_unfit fun ⟨result, back⟩ => unmet ?_))
      exact .function (List.forall₂_iff_zip.mpr ⟨counts, fun zipped => params _ zipped⟩) result back
    · exact .pure (.param counts (first.imp (fun _ => AliasMap.DerivesBoth.identical)
        fun _ => AliasMap.distinct_of_not_derivesBoth))
  · rw [if_pos counts]
    exact .pure (.paramCount counts)

section Concrete

variable {explain : Ty → Ty → CheckM Verdict} {value target : Ty}
  (inner : ∀ value target,
    Yields ctx (explain value target) (Verdict.Holds ctx.aliases value target))

include inner

theorem explainConcrete_yields
    (refused : ¬ Justified ctx.aliases ctx.aliases.Derives value target) :
    Yields ctx (explainConcrete ctx explain value target) (Genuine ctx.aliases value target) := by
  unfold explainConcrete
  dsimp only
  split
  case h_1 sources members =>
    refine .option (firstRefused_yields (isCompatible_decides ctx · _) sources) (fun each => ?_) ?_
    · exact absurd (.byShape rfl (.ofUnion each)) refused
    · rintro m ⟨i, first⟩
      exact .pure (.sourceMember first.unfit)
  case h_2 members notUnion =>
    have single := Ty.isUnion_eq_false notUnion
    refine .pure (.noMember single fun m listed => AliasMap.unfit_of_not_derives fun derived => ?_)
    exact refused (.byShape rfl (.toUnion single listed (Or.inr derived)))
  case h_3 sources notUnion =>
    refine .option (firstRefused_yields (isCompatible_decides ctx · target) sources)
      (fun each => .pure ?_) ?_
    · by_cases never : target.isNever = true
      · rw [(isNever_iff target).mp never]
        exact .toNever _
      · rw [Bool.not_eq_true] at never
        exact absurd (.byShape never (.ofUnion each)) refused
    · rintro m ⟨i, first⟩
      exact .pure (.sourceMember first.unfit)
  case h_4 members notUnion =>
    have single := Ty.isUnion_eq_false notUnion
    refine .option (firstRefused_yields (isCompatible_decides ctx value) members)
      (fun each => ?_) ?_
    · exact absurd (.byShape rfl (.toIntersection single each)) refused
    · rintro m ⟨i, first⟩
      exact .pure (.targetMember single first.unfit)
  case h_5 a b =>
    refine .pure (.literal (Bool.eq_false_iff.mpr fun equal => refused ?_))
    exact .byShape rfl (.literal equal)
  case h_6 a kind =>
    refine .pure (.literalKeyword ?_)
    rintro rfl
    have inhabited : (Ty.primitive a.base).isNever = false := by cases a <;> rfl
    exact refused (.byShape inhabited (.literalBase a))
  case h_7 a b =>
    refine .pure (.keyword ?_)
    rintro rfl
    exact refused (.equal (Ty.same_self _))
  case h_8 kind a => exact .pure (.keywordLiteral kind a)
  case h_9 s t =>
    refine .pure (.arrayElement (AliasMap.unfit_of_not_derives fun derived => refused ?_))
    exact .byShape rfl (.array derived)
  case h_10 ss ts =>
    by_cases counts : ss.length = ts.length
    · rw [if_neg (not_not_intro counts)]
      refine .option (firstRefusedPair_yields (isCompatible_decides ctx) ss ts) (fun each => ?_)
        fun found first => .pure (.tupleElement counts first.unfit)
      refine absurd (.byShape rfl (.tuple ?_)) refused
      exact List.forall₂_iff_zip.mpr ⟨counts, fun zipped => each _ zipped⟩
    · rw [if_pos counts]
      exact .pure (.elementCount counts)
  case h_11 ss t =>
    have pairs : ss.zip (ss.map fun _ => t) = ss.map (·, t) := List.map_prod_left_eq_zip.symm
    refine .option (firstRefusedPair_yields (isCompatible_decides ctx) ss _) (fun each => ?_)
      ?_
    · rw [pairs] at each
      refine absurd (.byShape rfl (.tupleArray fun s listed => ?_)) refused
      exact each _ (List.mem_map_of_mem listed)
    · rintro ⟨p, i⟩ first
      rw [FindsPair, pairs] at first
      obtain ⟨s, rfl, single⟩ := First.of_map first
      exact .pure (.arrayedElement single.unfit)
  case h_12 s t => exact explainSignatures_yields fun rule => refused (.byShape rfl rule)
  case h_13 =>
    split
    case h_1 source shape valueShape targetShape =>
      refine .bind (explainShapes_yields inner fun met => refused ?_) ?_
      · exact .byShape (isNever_of_asShape? targetShape) (.shapes valueShape targetShape met)
      · rintro _ ⟨reason, rfl, genuine⟩
        exact .pure (.slot valueShape targetShape genuine)
    case h_2 unshaped =>
      have kinds : value.hasReason target = false := by
        unfold Ty.hasReason
        split
        case h_12 =>
          rw [Bool.eq_false_iff, Ne, Bool.and_eq_true]
          rintro ⟨valueShaped, targetShaped⟩
          obtain ⟨source, valueShape⟩ := Option.isSome_iff_exists.mp valueShaped
          obtain ⟨shape, targetShape⟩ := Option.isSome_iff_exists.mp targetShaped
          exact unshaped source shape valueShape targetShape
        -- all other kinds have been dealt with before
        all_goals simp_all
      exact .pure (genuine_other kinds refused)

omit inner in
theorem limitExceeded_yields : Yields ctx limitExceeded (· = false) :=
  fun _ unhindered _ => ⟨unhindered.passed, unhindered⟩

/-- Every level begins with a comparison, and ends there if the types are compatible. -/
theorem explainPair_yields (value target : Ty) :
    Yields ctx (explainPair ctx explain value target) (Explains ctx.aliases value target) := by
  refine .test (isCompatible_decides ctx value target) .pure fun missing => ?_
  refine .bind limitExceeded_yields ?_
  rintro _ rfl
  refine .bind (explainConcrete_yields inner (mt AliasMap.derives_of_justified missing)) ?_
  exact fun reason genuine => .pure ⟨missing, genuine⟩

end Concrete

theorem explainWithin_yields (steps : Nat) (value target : Ty) :
    Yields ctx (explainWithin ctx steps value target) (Verdict.Holds ctx.aliases value target) := by
  induction steps generalizing value target with
  | zero =>
      refine .test (isCompatible_decides ctx value target) .pure fun missing => ?_
      exact .pure ⟨missing, nofun⟩
  | succ steps ih =>
      refine .option (explainPair_yields ih value target) .pure fun reason told => ?_
      refine .pure ⟨told.1, ?_⟩
      rintro _ ⟨⟩
      exact told.2

/-- An explanation without a limit begins with a comparison without one. -/
theorem compatible_cut_of_explain {value target : Ty}
    (finished : ((explain ctx value target).run ctx.walk).cut = false) :
    (ctx.compatible value target).cut = false := by
  have first : ((isCompatible ctx value target).run ctx.walk).cut = false :=
    (Bool.or_eq_false_iff.mp finished).1
  exact first

/-- Without a limit, there is no reason exactly if the value may go where the target is expected. A
reason that is given is true: no comparison of the two types is positive, whatever the settings, and
the reason is genuine of the two concrete types. -/
theorem explain_genuine (ctx : Context) (value target : Ty)
    (finished : (ask ctx (explain ctx value target)).cut = false) :
    let reason? := (ask ctx (explain ctx value target)).value
    (reason? = none ↔ (ctx.compatible value target).value = true) ∧
      ∀ reason, reason? = some reason →
        ctx.aliases.Unfit value target ∧
          Genuine ctx.aliases (ctx.aliases.concrete value) (ctx.aliases.concrete target) reason := by
  intro reason?
  have uncut : ((explain ctx value target).run ctx.walk).cut = false :=
    (Bool.or_false _).symm.trans finished
  have told : Explains ctx.aliases value target reason? :=
    (explainPair_yields (explainWithin_yields _) value target ctx.walk ⟨.new ctx, rfl⟩ uncut).1
  refine ⟨⟨fun none => ?_, fun accepted => ?_⟩, fun reason given => ?_⟩
  · rw [none] at told
    exact ctx.compatible_of_derivable told (compatible_cut_of_explain uncut)
  · cases answer : reason? with
    | none => rfl
    | some reason =>
        rw [answer] at told
        exact absurd (ctx.derivable_of_compatible accepted) told.1
  · rw [given] at told
    exact ⟨AliasMap.unfit_of_not_derives told.1, told.2⟩

/-- The author of a draft has the name of a role, the author of a post its number. -/
def drafts : Context where
  aliases :=
    { definitions :=
        [⟨"Draft", [], .object { properties := [⟨"title", .string, false⟩,
            ⟨"author", .ref "Named", false⟩] }⟩,
          ⟨"Named", [], .object { properties := [⟨"role", .string, false⟩] }⟩,
          ⟨"Post", [], .object { properties := [⟨"title", .string, true⟩,
            ⟨"author", .object { properties := [⟨"role", .number, false⟩] }, false⟩] }⟩] }

/-- A draft is no post, and the role of its author is to blame. -/
theorem draft_explained :
    ∃ reason : Mismatch, reason.path? = some "author.role" ∧
      drafts.aliases.Unfit (.ref "Draft") (.ref "Post") ∧
      Genuine drafts.aliases (drafts.aliases.concrete (.ref "Draft"))
        (drafts.aliases.concrete (.ref "Post")) reason := by
  let answer := ask drafts (explain drafts (.ref "Draft") (.ref "Post"))
  have finished : answer.cut = false := by decide +kernel
  have named : answer.value.bind Mismatch.path? = some "author.role" := by decide +kernel
  obtain ⟨reason, given, path⟩ := Option.bind_eq_some_iff.mp named
  exact ⟨reason, path, (explain_genuine drafts _ _ finished).2 reason given⟩

end CheckM

end StructuralTypes
