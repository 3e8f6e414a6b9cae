import StructuralTypes.Walk

set_option autoImplicit false

namespace StructuralTypes.Walk

variable {Key : Type}

/-- A walk after one more request. -/
def counted (walk : Walk Key) : Walk Key :=
  { walk with entries := min (walk.entries + 1) Limits.countCap }

/-- A walk after a request that a limit refused. -/
def refused (walk : Walk Key) : Walk Key := { walk.counted with exceeded := true }

/-- A walk inside of one more key. -/
def inside (walk : Walk Key) (key : Key) : Walk Key :=
  { walk.counted with visiting := key :: walk.visiting, depth := walk.depth + 1 }

section Requests

variable [BEq Key]

/-- The possible outcomes of a request. -/
inductive Enters (walk : Walk Key) (key : Key) : Entry × Walk Key → Prop
  | entered (new : walk.visiting.contains key = false) (shallow : walk.depth < walk.limits.depth)
    (room : walk.visiting.length < Limits.maxOpen)
    (allowed : walk.counted.entries ≤ walk.limits.entries) :
    Enters walk key (.entered, walk.inside key)
  | cycle (known : walk.visiting.contains key = true) (shallow : walk.depth < walk.limits.depth)
    (allowed : walk.counted.entries ≤ walk.limits.entries) : Enters walk key (.cycle, walk.counted)
  | tooDeep (deep : walk.limits.depth ≤ walk.depth ∨
      walk.visiting.contains key = false ∧ Limits.maxOpen ≤ walk.visiting.length)
    (allowed : walk.counted.entries ≤ walk.limits.entries) : Enters walk key (.tooDeep, walk.refused)
  | tooMany (many : walk.limits.entries < walk.counted.entries) :
    Enters walk key (.tooMany, walk.refused)

theorem enter_enters (walk : Walk Key) (key : Key) : Enters walk key (walk.enter key) := by
  unfold enter
  dsimp only
  split
  · rename_i many
    exact .tooMany many
  · rename_i few
    have allowed : walk.counted.entries ≤ walk.limits.entries := Nat.le_of_not_lt few
    split
    · rename_i deep
      exact .tooDeep (Or.inl deep) allowed
    · rename_i shallow
      split
      · rename_i known
        exact .cycle known (by omega) allowed
      · rename_i new
        rw [Bool.not_eq_true] at new
        split
        · rename_i full
          exact .tooDeep (Or.inr ⟨new, full⟩) allowed
        · rename_i room
          exact .entered new (by omega) (by omega) allowed

end Requests

/-- A later state of a walk that is inside of the same keys. That a limit refused a request is not
forgotten. -/
structure Follows (before after : Walk Key) : Prop where
  limits : after.limits = before.limits
  visiting : after.visiting = before.visiting
  depth : after.depth = before.depth
  exceeded : before.exceeded = true → after.exceeded = true

theorem Follows.refl (walk : Walk Key) : walk.Follows walk := ⟨rfl, rfl, rfl, id⟩

theorem Follows.trans {first second third : Walk Key} (one : first.Follows second)
    (two : second.Follows third) : first.Follows third where
  limits := two.limits.trans one.limits
  visiting := two.visiting.trans one.visiting
  depth := two.depth.trans one.depth
  exceeded := two.exceeded ∘ one.exceeded

theorem follows_counted (walk : Walk Key) : walk.Follows walk.counted := ⟨rfl, rfl, rfl, id⟩

theorem follows_refused (walk : Walk Key) : walk.Follows walk.refused :=
  ⟨rfl, rfl, rfl, fun _ => rfl⟩

/-- Leaving the key that was entered last undoes the entry. -/
theorem follows_leave [BEq Key] [ReflBEq Key] {walk after : Walk Key} {key : Key}
    (inner : (walk.inside key).Follows after) : walk.Follows (after.leave key) where
  limits := inner.limits
  visiting := by
    change after.visiting.erase key = walk.visiting
    rw [inner.visiting]
    change (key :: walk.visiting).erase key = walk.visiting
    rw [List.erase_cons, if_pos BEq.rfl]
  depth := by
    change after.depth - 1 = walk.depth
    rw [inner.depth]
    rfl
  exceeded := inner.exceeded

/-- The walk counts the keys that it is inside of, they are within its limits, and it has not gone
deeper than `levels` levels allow for. -/
structure Room (levels : Nat) (walk : Walk Key) : Prop where
  balanced : walk.depth = walk.visiting.length
  limited : walk.depth ≤ min walk.limits.depth Limits.maxOpen
  enough : min walk.limits.depth Limits.maxOpen < levels + walk.depth

theorem Room.positive {levels : Nat} {walk : Walk Key} (room : walk.Room levels) : 0 < levels := by
  have limited := room.limited
  have enough := room.enough
  omega

theorem Room.follows {levels : Nat} {before after : Walk Key} (room : before.Room levels)
    (later : before.Follows after) : after.Room levels where
  balanced := by rw [later.depth, later.visiting, room.balanced]
  limited := by
    rw [later.depth, later.limits]
    exact room.limited
  enough := by
    rw [later.depth, later.limits]
    exact room.enough

theorem Room.inside {levels : Nat} {walk : Walk Key} (room : walk.Room (levels + 1)) (key : Key)
    (shallow : walk.depth < walk.limits.depth) (space : walk.visiting.length < Limits.maxOpen) :
    (walk.inside key).Room levels where
  balanced := by
    change walk.depth + 1 = walk.visiting.length + 1
    rw [room.balanced]
  limited := by
    have balanced := room.balanced
    change walk.depth + 1 ≤ min walk.limits.depth Limits.maxOpen
    omega
  enough := by
    have enough := room.enough
    change min walk.limits.depth Limits.maxOpen < levels + (walk.depth + 1)
    omega

end StructuralTypes.Walk
