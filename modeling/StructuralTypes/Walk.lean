set_option autoImplicit false

namespace StructuralTypes

structure Limits where
  depth : Nat
  entries : Nat
deriving DecidableEq

namespace Limits

/-- The number of requests to enter that a walk over two types accepts. -/
def maxEntries : Nat := 100000

/-- The number of keys that a walk is inside of at once, whatever its depth limit. -/
def maxOpen : Nat := 10000

/-- Requests are counted in 32 bits, and the count stays at its greatest value. -/
def countCap : Nat := 4294967295

/-- The limits for comparing two types. -/
def compatibility : Limits := ⟨100, maxEntries⟩

end Limits

/-- The answer to a request to enter a key. -/
inductive Entry where
  | entered
  /-- The walk is already inside of the key. -/
  | cycle
  | tooDeep
  | tooMany
deriving DecidableEq

/-- The books of a recursive walk that may come back to where it already is. -/
structure Walk (Key : Type) where
  limits : Limits
  /-- The keys that the walk is inside of, the innermost first. -/
  visiting : List Key := []
  depth : Nat := 0
  entries : Nat := 0
  /-- Some request since the start was refused because of a limit. -/
  exceeded : Bool := false

namespace Walk

variable {Key : Type}

/-- The walk before its first request. -/
def reset (walk : Walk Key) : Walk Key := { limits := walk.limits }

variable [BEq Key]

/-- Asks to enter a key. The number of requests is tested before the depth, and both before the
keys that the walk is inside of. -/
def enter (walk : Walk Key) (key : Key) : Entry × Walk Key :=
  let walk := { walk with entries := min (walk.entries + 1) Limits.countCap }
  if walk.limits.entries < walk.entries then (.tooMany, { walk with exceeded := true })
  else if walk.limits.depth ≤ walk.depth then (.tooDeep, { walk with exceeded := true })
  else if walk.visiting.contains key then (.cycle, walk)
  else if Limits.maxOpen ≤ walk.visiting.length then (.tooDeep, { walk with exceeded := true })
  else (.entered, { walk with visiting := key :: walk.visiting, depth := walk.depth + 1 })

/-- Leaves a key that was entered. -/
def leave (walk : Walk Key) (key : Key) : Walk Key :=
  { walk with visiting := walk.visiting.erase key, depth := walk.depth - 1 }

end Walk

end StructuralTypes
