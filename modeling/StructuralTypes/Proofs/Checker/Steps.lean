import Mathlib.Data.List.ProdSigma
import StructuralTypes.Proofs.Checker.Reuse
import StructuralTypes.Proofs.Keyof.Steps

set_option autoImplicit false

namespace StructuralTypes

namespace Mismatch

/-- The number of properties that a reason goes through. -/
def depth : Mismatch → Nat
  | propertyType _ _ _ none => 1
  | propertyType _ _ _ (some nested) => nested.depth + 1
  | _ => 0
termination_by structural m => m

theorem isAboutProperty_of_depth {reason : Mismatch} (deep : 0 < reason.depth) :
    reason.isAboutProperty = true := by
  cases reason with
  | propertyType => rfl
  | _ => cases deep

end Mismatch

namespace CheckM

variable {ctx : Context} {α β : Type} {value target : Ty}

/-- Asked between two questions, the computation has this result. -/
def Gives (ctx : Context) (x : CheckM α) (a : α) : Prop :=
  ∀ walk, Idle ctx walk → (x.run walk).value.1 = a

theorem Gives.pure (a : α) : Gives ctx (Pure.pure a : CheckM α) a := fun _ _ => rfl

theorem run_bind_value (x : CheckM α) (f : α → CheckM β) (walk : Walk Query) :
    ((x >>= f).run walk).value.1 =
      ((f (x.run walk).value.1).run (x.run walk).value.2).value.1 := rfl

theorem Gives.bind {x : CheckM α} {f : α → CheckM β} {a : α} {b : β} (returns : Returns ctx x)
    (first : Gives ctx x a) (rest : Gives ctx (f a) b) : Gives ctx (x >>= f) b := by
  intro walk idle
  rw [run_bind_value, first walk idle]
  exact rest _ (returns walk idle)

theorem isCompatible_gives (ctx : Context) (value target : Ty) :
    Gives ctx (isCompatible ctx value target) (ctx.compatible value target).value := by
  intro walk idle
  rw [isCompatible_run idle]
  rfl

theorem firstRefused_gives {accepts : α → CheckM Bool} {answer : α → Bool}
    (returns : ∀ a, Returns ctx (accepts a)) (each : ∀ a, Gives ctx (accepts a) (answer a))
    (as : List α) : Gives ctx (firstRefused accepts as) (as.find? fun a => !answer a) := by
  induction as with
  | nil => exact .pure _
  | cons a as ih =>
      refine .bind (returns a) (each a) ?_
      rw [List.find?_cons]
      cases answer a with
      | true => exact ih
      | false => exact .pure _

section Levels

/-- The reason for a pair, with this many steps left for the properties inside. -/
def reasonWithin (ctx : Context) (steps : Nat) (value target : Ty) : Option Mismatch :=
  (ask ctx (explainPair ctx (explainWithin ctx steps) value target)).value

/-- The reason inside of a property, where looking into the property takes one step. -/
def insideWithin (ctx : Context) : Nat → Ty → Ty → Option Mismatch
  | 0, _, _ => none
  | steps + 1, value, target => reasonWithin ctx steps value target

theorem explainPair_gives (steps : Nat) (value target : Ty) :
    Gives ctx (explainPair ctx (explainWithin ctx steps) value target)
      (reasonWithin ctx steps value target) := by
  intro walk idle
  rw [explainPair_run idle]
  rfl

theorem explainPair_accepted {explain : Ty → Ty → CheckM Verdict}
    (accepted : (ctx.compatible value target).value = true) :
    Gives ctx (explainPair ctx explain value target) none := by
  refine .bind (.isCompatible value target) (isCompatible_gives ctx value target) ?_
  rw [accepted]
  exact .pure _

/-- The reason for a refusal is the limit, or it is looked for on the walk that the comparison leaves
behind. -/
theorem explainPair_refused (refused : (ctx.compatible value target).value = false) :
    ∃ walk, Idle ctx walk ∧ ∀ explain,
      ((explainPair ctx explain value target).run ctx.walk).value.1 =
        if walk.exceeded then some .limit
        else some ((explainConcrete ctx explain (ctx.aliases.concrete value)
          (ctx.aliases.concrete target)).run walk).value.1 := by
  let after := ((isCompatible ctx value target).run ctx.walk).value.2
  have first : ((isCompatible ctx value target).run ctx.walk).value.1 = false :=
    (isCompatible_gives ctx value target ctx.walk (.new ctx)).trans refused
  refine ⟨after, Returns.isCompatible value target ctx.walk (.new ctx), fun explain => ?_⟩
  have limited : (limitExceeded.run after).value = (after.exceeded, after) := rfl
  rw [explainPair, run_bind_value, first, if_neg Bool.false_ne_true, run_bind_value, limited]
  cases after.exceeded <;> rfl

theorem reasonWithin_ne_none (refused : (ctx.compatible value target).value = false) (steps : Nat) :
    reasonWithin ctx steps value target ≠ none := by
  obtain ⟨walk, -, reason⟩ := explainPair_refused refused
  have found : reasonWithin ctx steps value target = _ := reason (explainWithin ctx steps)
  rw [found]
  split <;> exact nofun

theorem explainWithin_accepted (accepted : (ctx.compatible value target).value = true)
    (steps : Nat) : Gives ctx (explainWithin ctx steps value target) .accepted := by
  cases steps with
  | zero =>
      refine .bind (.isCompatible value target) (isCompatible_gives ctx value target) ?_
      rw [accepted]
      exact .pure _
  | succ steps =>
      exact .bind (.explainPair (.explainWithin steps) value target) (explainPair_accepted accepted)
        (.pure _)

theorem explainWithin_refused (refused : (ctx.compatible value target).value = false)
    (steps : Nat) :
    Gives ctx (explainWithin ctx steps value target)
      (.refused (insideWithin ctx steps value target)) := by
  cases steps with
  | zero =>
      refine .bind (.isCompatible value target) (isCompatible_gives ctx value target) ?_
      rw [refused]
      exact .pure _
  | succ steps =>
      refine .bind (.explainPair (.explainWithin steps) value target)
        (explainPair_gives steps value target) ?_
      obtain ⟨reason, found⟩ := Option.ne_none_iff_exists'.mp (reasonWithin_ne_none refused steps)
      rw [insideWithin, found]
      exact .pure _

end Levels

section Properties

variable {source shape : Shape Ty} {slot property : Property Ty} {slots : List (Property Ty)}

/-- The reason for a property, given what is found inside of it. -/
def reasonOf (slot property : Property Ty) (inside : Option Mismatch) : Mismatch :=
  .propertyType slot.name property.ty slot.ty (inside.filter Mismatch.isAboutProperty)

/-- What is found is the same for every number of steps, or it is about one property of the source
and lies inside of it. -/
inductive Located (ctx : Context) (source : Shape Ty) (slots : List (Property Ty))
    (found : Nat → CheckM (Option Mismatch)) : Prop
  | here (reason? : Option Mismatch) (gives : ∀ steps, Gives ctx (found steps) reason?)
  | inside {slot property : Property Ty} (declared : slot ∈ slots) (own : property ∈ source.properties)
    (gives : ∀ steps, Gives ctx (found steps)
      (some (reasonOf slot property (insideWithin ctx steps property.ty slot.declared))))

theorem explainProperty_located (ctx : Context) (source : Shape Ty) (slot : Property Ty) :
    Located ctx source [slot] fun steps =>
      explainProperty ctx (explainWithin ctx steps) source slot := by
  unfold explainProperty
  cases found : source.property? slot.name with
  | some property =>
      by_cases clash : (property.optional && !slot.optional) = true
      · refine .here (some (.optionalProperty slot.name)) fun steps => ?_
        simp only [clash, if_true]
        exact .pure _
      · simp only [clash, Bool.false_eq_true, if_false]
        cases answer : (ctx.compatible property.ty slot.declared).value with
        | true =>
            refine .here none fun steps => ?_
            exact .bind (.explainWithin steps _ _) (explainWithin_accepted answer steps) (.pure _)
        | false =>
            refine .inside (.head _) (mem_names_of_findProperty? found).1 fun steps => ?_
            exact .bind (.explainWithin steps _ _) (explainWithin_refused answer steps) (.pure _)
  | none =>
      by_cases optional : slot.optional = true
      · refine .here none fun steps => ?_
        simp only [optional, if_true]
        exact .pure _
      · simp only [optional, Bool.false_eq_true, if_false]
        cases source.index with
        | none => exact .here (some (.missingProperty slot.name)) fun steps => .pure _
        | some index =>
            refine .here (if (ctx.compatible index.value slot.ty).value then none
              else some (.indexValue index.value slot.ty)) fun steps => ?_
            refine .bind (.isCompatible _ _) (isCompatible_gives ctx index.value slot.ty) ?_
            cases (ctx.compatible index.value slot.ty).value with
            | true => exact .pure _
            | false => exact .pure _

theorem explainProperties_located (ctx : Context) (source : Shape Ty) (slots : List (Property Ty)) :
    Located ctx source slots fun steps =>
      explainProperties ctx (explainWithin ctx steps) source slots := by
  induction slots with
  | nil => exact .here none fun steps => .pure _
  | cons slot slots ih =>
      have returns (steps : Nat) :
          Returns ctx (explainProperty ctx (explainWithin ctx steps) source slot) :=
        .explainProperty (.explainWithin steps) source slot
      cases explainProperty_located ctx source slot with
      | here reason? gives =>
          cases reason? with
          | some reason => exact .here _ fun steps => .bind (returns steps) (gives steps) (.pure _)
          | none =>
              cases ih with
              | here reason? rest =>
                  exact .here reason? fun steps => .bind (returns steps) (gives steps) (rest steps)
              | inside declared own rest =>
                  refine .inside (.tail _ declared) own fun steps => ?_
                  exact .bind (returns steps) (gives steps) (rest steps)
      | inside declared own gives =>
          cases List.mem_singleton.mp declared
          refine .inside (.head _) own fun steps => ?_
          exact .bind (returns steps) (gives steps) (.pure _)

theorem explainIndex_gives (ctx : Context) (source : Shape Ty) (index : IndexSignature Ty) :
    ∃ reason?, Gives ctx (explainIndex ctx source index) reason? := by
  have each (p : Property Ty) : Returns ctx (isCompatible ctx p.ty index.value) :=
    .isCompatible p.ty index.value
  have search := firstRefused_gives each (fun p => isCompatible_gives ctx p.ty index.value)
    source.properties
  have returns := Returns.firstRefused each source.properties
  unfold explainIndex
  cases found : source.properties.find? fun p => !(ctx.compatible p.ty index.value).value with
  | some p =>
      rw [found] at search
      exact ⟨_, .bind returns search (.pure _)⟩
  | none =>
      rw [found] at search
      exact ⟨_, .bind returns search (.pure _)⟩

theorem explainShapes_located (ctx : Context) (source shape : Shape Ty) :
    Located ctx source shape.properties fun steps =>
      explainShapes ctx (explainWithin ctx steps) source shape := by
  have returns (steps : Nat) :
      Returns ctx (explainProperties ctx (explainWithin ctx steps) source shape.properties) :=
    .explainProperties (.explainWithin steps) source shape.properties
  unfold explainShapes
  cases explainProperties_located ctx source shape.properties with
  | inside declared own gives =>
      exact .inside declared own fun steps => .bind (returns steps) (gives steps) (.pure _)
  | here reason? gives =>
      cases reason? with
      | some reason => exact .here _ fun steps => .bind (returns steps) (gives steps) (.pure _)
      | none =>
          cases shape.index with
          | none => exact .here none fun steps => .bind (returns steps) (gives steps) (.pure _)
          | some index =>
              obtain ⟨reason?, rest⟩ := explainIndex_gives ctx source index
              exact .here reason? fun steps => .bind (returns steps) (gives steps) rest

end Properties

section Pairs

variable {property slot : Property Ty} {steps : Nat}

theorem explainConcrete_of_shapes {source shape : Shape Ty} (explain : Ty → Ty → CheckM Verdict)
    (valueShape : value.asShape? = some source) (targetShape : target.asShape? = some shape) :
    explainConcrete ctx explain value target =
      explainShapes ctx explain source shape >>= fun reason? =>
        pure (reason?.getD (.other value target)) := by
  cases value <;> cases valueShape <;> cases target <;> cases targetShape <;> rfl

/-- Only properties are looked into. -/
theorem explainConcrete_of_unshaped (explain explain' : Ty → Ty → CheckM Verdict)
    (unshaped : value.asShape? = none ∨ target.asShape? = none) :
    explainConcrete ctx explain value target = explainConcrete ctx explain' value target := by
  cases value with
  | object | record =>
      cases target with
      | object | record => rcases unshaped with impossible | impossible <;> cases impossible
      | _ => rfl
  | _ => cases target <;> rfl

/-- Whatever the number of steps, the reason for a pair lies in this property and inside of it. -/
structure Leads (ctx : Context) (value target : Ty) (property slot : Property Ty) : Prop where
  own : ∃ source, (ctx.aliases.concrete value).asShape? = some source ∧ property ∈ source.properties
  declared : ∃ shape, (ctx.aliases.concrete target).asShape? = some shape ∧ slot ∈ shape.properties
  reason : ∀ steps, reasonWithin ctx steps value target =
    some (reasonOf slot property (insideWithin ctx steps property.ty slot.declared))

/-- A reason that was looked for hangs on the number of steps only if it leads inwards. -/
theorem leads_of_refused {walk : Walk Query} (idle : Idle ctx walk)
    (reason : ∀ steps, reasonWithin ctx steps value target =
      some ((explainConcrete ctx (explainWithin ctx steps) (ctx.aliases.concrete value)
        (ctx.aliases.concrete target)).run walk).value.1) :
    (∀ steps, reasonWithin ctx steps value target = reasonWithin ctx 0 value target) ∨
      ∃ property slot, Leads ctx value target property slot := by
  cases valueShape : (ctx.aliases.concrete value).asShape? with
  | none =>
      refine Or.inl fun steps => ?_
      rw [reason, reason, explainConcrete_of_unshaped _ (explainWithin ctx 0) (Or.inl valueShape)]
  | some source =>
      cases targetShape : (ctx.aliases.concrete target).asShape? with
      | none =>
          refine Or.inl fun steps => ?_
          rw [reason, reason, explainConcrete_of_unshaped _ (explainWithin ctx 0) (Or.inr targetShape)]
      | some shape =>
          simp only [explainConcrete_of_shapes _ valueShape targetShape, run_bind_value] at reason
          cases explainShapes_located ctx source shape with
          | here reason? gives =>
              refine Or.inl fun steps => ?_
              rw [reason, reason, gives steps walk idle, gives 0 walk idle]
              rfl
          | @inside slot property declared own gives =>
              refine Or.inr ⟨property, slot, ⟨source, valueShape, own⟩,
                ⟨shape, targetShape, declared⟩, fun steps => ?_⟩
              rw [reason, gives steps walk idle]
              rfl

theorem reasonWithin_cases (ctx : Context) (value target : Ty) :
    (∀ steps, reasonWithin ctx steps value target = reasonWithin ctx 0 value target) ∨
      ∃ property slot, Leads ctx value target property slot := by
  cases answer : (ctx.compatible value target).value with
  | true =>
      have none (steps : Nat) : reasonWithin ctx steps value target = .none :=
        explainPair_accepted answer ctx.walk (.new ctx)
      exact Or.inl fun steps => (none steps).trans (none 0).symm
  | false =>
      obtain ⟨walk, idle, refusal⟩ := explainPair_refused answer
      have reason (steps : Nat) : reasonWithin ctx steps value target = _ :=
        refusal (explainWithin ctx steps)
      cases exceeded : walk.exceeded with
      | true =>
          simp only [exceeded, if_true] at reason
          exact Or.inl fun steps => (reason steps).trans (reason 0).symm
      | false =>
          simp only [exceeded, Bool.false_eq_true, if_false] at reason
          exact leads_of_refused idle reason

/-- More than the given number of properties are looked into, one inside of the other. -/
inductive Descends (ctx : Context) : Nat → Ty → Ty → Prop
  | one {value target : Ty} {property slot : Property Ty}
    (leads : Leads ctx value target property slot) : Descends ctx 0 value target
  | more {steps : Nat} {value target : Ty} {property slot : Property Ty}
    (leads : Leads ctx value target property slot)
    (inside : Descends ctx steps property.ty slot.declared) : Descends ctx (steps + 1) value target

namespace Descends

theorem leads (descends : Descends ctx steps value target) :
    ∃ property slot, Leads ctx value target property slot := by
  cases descends with
  | one leads => exact ⟨_, _, leads⟩
  | more leads => exact ⟨_, _, leads⟩

theorem pred (descends : Descends ctx (steps + 1) value target) : Descends ctx steps value target := by
  induction steps generalizing value target with
  | zero =>
      cases descends with
      | more leads => exact .one leads
  | succ steps ih =>
      cases descends with
      | more leads inside => exact .more leads (ih inside)

theorem of_le {fewer : Nat} (descends : Descends ctx steps value target) (atMost : fewer ≤ steps) :
    Descends ctx fewer value target := by
  induction atMost with
  | refl => exact descends
  | step _ ih => exact ih descends.pred

/-- The reason tells every property that was looked into. -/
theorem lt_depth (descends : Descends ctx steps value target) :
    ∃ reason, reasonWithin ctx steps value target = some reason ∧ steps < reason.depth := by
  induction descends with
  | one leads => exact ⟨_, leads.reason 0, Nat.zero_lt_one⟩
  | @more steps value target property slot leads inside ih =>
      obtain ⟨nested, found, deep⟩ := ih
      have about : nested.isAboutProperty = true := Mismatch.isAboutProperty_of_depth (by omega)
      refine ⟨_, leads.reason (steps + 1), ?_⟩
      rw [insideWithin, found, reasonOf, Option.filter_some_pos about, Mismatch.depth]
      omega

end Descends

/-- One step more makes no difference unless all were taken. -/
theorem reasonWithin_succ (ended : ¬ Descends ctx steps value target) :
    reasonWithin ctx (steps + 1) value target = reasonWithin ctx steps value target := by
  induction steps generalizing value target with
  | zero =>
      rcases reasonWithin_cases ctx value target with still | ⟨property, slot, leads⟩
      · exact (still _).trans (still _).symm
      · exact absurd (.one leads) ended
  | succ steps ih =>
      rcases reasonWithin_cases ctx value target with still | ⟨property, slot, leads⟩
      · exact (still _).trans (still _).symm
      · rw [leads.reason, leads.reason, insideWithin, insideWithin,
          ih fun inside => ended (.more leads inside)]

theorem reasonWithin_of_le {more : Nat} (ended : ¬ Descends ctx steps value target)
    (atLeast : steps ≤ more) :
    reasonWithin ctx more value target = reasonWithin ctx steps value target := by
  induction more, atLeast using Nat.le_induction with
  | base => rfl
  | succ more enough ih =>
      rw [reasonWithin_succ fun further => ended (further.of_le enough), ih]

end Pairs

section Nodes

open AliasMap

variable {property slot : Property Ty} {ty : Ty} {nodes : List Ty} (parts : Ty.PartsListed nodes)
  (bodies : ∀ d ∈ ctx.aliases.definitions, d.body ∈ nodes)

/-- A type with a shape is no union, so it is a node itself. -/
theorem mem_of_shaped {shape : Shape Ty} (known : Known (Within nodes) ty)
    (shaped : (ctx.aliases.concrete ty).asShape? = some shape) : ty ∈ nodes := by
  have own (unnamed : ty.refName? = none) (plain : ∀ subject, ty ≠ .keyof subject) :
      ty.asShape? = some shape := by
    rwa [concrete_eq_self unnamed plain] at shaped
  by_cases several : ty.isUnion = true
  · cases ty with
    | unionOf members => cases own rfl fun _ => Ty.noConfusion
    | _ => cases several
  · rcases known.of_single (by simpa using several) with here | ⟨kind, rfl⟩ | ⟨value, rfl⟩
    · exact here
    · cases own rfl fun _ => Ty.noConfusion
    · cases own rfl fun _ => Ty.noConfusion

include parts bodies

theorem concrete_known (here : ty ∈ nodes) : Known (Within nodes) (ctx.aliases.concrete ty) := by
  have closed := keyofClosed_within parts bodies
  have resolved := closed.resolved (closed.known (Or.inl here))
  rw [concrete]
  split
  case h_1 subject evaluated =>
    rw [evaluated] at resolved
    exact closed.resolved (closed.keyofSubject
      (closed.known (closed.subject subject (resolved.of_single rfl))))
  case h_2 => exact resolved

theorem property_mem_nodes {shape : Shape Ty} (here : ty ∈ nodes)
    (shaped : (ctx.aliases.concrete ty).asShape? = some shape) (listed : property ∈ shape.properties) :
    property.ty ∈ nodes := by
  have known := concrete_known parts bodies here
  have again : (ctx.aliases.concrete (ctx.aliases.concrete ty)).asShape? = some shape := by
    rwa [concrete_of_asShape? shaped]
  have node : ctx.aliases.concrete ty ∈ nodes := mem_of_shaped known again
  cases object : ctx.aliases.concrete ty with
  | object own =>
      rw [object] at shaped node
      cases shaped
      exact parts (.object shape) node property.ty (Ty.property_mem_children listed)
  | record key value =>
      rw [object] at shaped
      cases shaped
      cases listed
  | _ =>
      rw [object] at shaped
      cases shaped

theorem declared_known (here : slot.ty ∈ nodes) : Known (Within nodes) slot.declared := by
  have closed := keyofClosed_within parts bodies
  have own : Known (Within nodes) slot.ty := closed.known (Or.inl here)
  rw [Property.declared]
  split
  · refine closed.union (List.forall_mem_cons.mpr ⟨own, List.forall_mem_singleton.mpr ?_⟩)
    exact closed.known (closed.primitive .undefined)
  · exact own

/-- What a pair of nodes leads to is a pair of nodes, if it leads on. -/
theorem mem_nodes_of_leads {inner innerSlot : Property Ty} (hereValue : value ∈ nodes)
    (hereTarget : target ∈ nodes) (leads : Leads ctx value target property slot)
    (on : Leads ctx property.ty slot.declared inner innerSlot) :
    property.ty ∈ nodes ∧ slot.declared ∈ nodes := by
  obtain ⟨source, valueShape, own⟩ := leads.own
  obtain ⟨shape, targetShape, declared⟩ := leads.declared
  obtain ⟨innerShape, shaped, -⟩ := on.declared
  have slotHere := property_mem_nodes parts bodies hereTarget targetShape declared
  exact ⟨property_mem_nodes parts bodies hereValue valueShape own,
    mem_of_shaped (declared_known parts bodies slotHere) shaped⟩

/-- If all pairs of nodes that lead inwards so often do so once more, then they do so ever again. -/
theorem descends_stable {steps : Nat}
    (still : ∀ p ∈ nodes ×ˢ nodes, Descends ctx steps p.1 p.2 → Descends ctx (steps + 1) p.1 p.2) :
    ∀ p ∈ nodes ×ˢ nodes, Descends ctx (steps + 1) p.1 p.2 → Descends ctx (steps + 2) p.1 p.2 := by
  rintro ⟨value, target⟩ listed descends
  obtain ⟨hereValue, hereTarget⟩ := List.mem_product.mp listed
  cases descends with
  | @more _ _ _ property slot leads inside =>
      obtain ⟨_, _, on⟩ := inside.leads
      have here := mem_nodes_of_leads parts bodies hereValue hereTarget leads on
      exact .more leads (still (property.ty, slot.declared) (List.mem_product.mpr here) inside)

end Nodes

/-- An explanation either takes no more than the steps that it is given, so that more of them give the
same reason, or goes from property to property for ever: its reason then goes through more properties
than there were steps, however many there were. -/
theorem explain_ends_or_descends (ctx : Context) (value target : Ty) :
    (∀ steps, explainSteps ctx value target ≤ steps →
      (ask ctx (explainPair ctx (explainWithin ctx steps) value target)).value =
        (ask ctx (explain ctx value target)).value) ∨
    ∀ steps, ∃ reason,
      (ask ctx (explainPair ctx (explainWithin ctx steps) value target)).value = some reason ∧
        steps < reason.depth := by
  let roots := value :: target :: ctx.aliases.definitions.map (·.body)
  let nodes := roots.flatMap Ty.nodes
  have parts : Ty.PartsListed nodes := Ty.partsListed_flatMap_nodes roots
  have listed (ty : Ty) (root : ty ∈ roots) : ty ∈ nodes :=
    List.mem_flatMap.mpr ⟨ty, root, ty.self_mem_nodes⟩
  have bodies (d : AliasDefinition) (member : d ∈ ctx.aliases.definitions) : d.body ∈ nodes :=
    listed d.body (.tail _ (.tail _ (List.mem_map_of_mem member)))
  have pair : (value, target) ∈ nodes ×ˢ nodes :=
    List.mem_product.mpr ⟨listed value (.head _), listed target (.tail _ (.head _))⟩
  have steps_eq : explainSteps ctx value target = (nodes ×ˢ nodes).length := by
    rw [List.length_product, Ty.length_flatMap_nodes, explainSteps, Ty.sizeAll, Ty.sizeAll,
      AliasMap.bodySize, Nat.add_assoc]
  -- With every step some pair of nodes ends, or none ends any more; there are as many pairs as steps.
  by_cases long : Descends ctx (explainSteps ctx value target) value target
  · refine Or.inr fun steps => Descends.lt_depth ?_
    rw [steps_eq] at long
    exact goesOn_of_length (fun n p => Descends ctx n p.1 p.2) (fun n p _ => Descends.pred)
      (fun n => descends_stable parts bodies) pair long steps
  · exact Or.inl fun steps => reasonWithin_of_le long

end CheckM

end StructuralTypes
