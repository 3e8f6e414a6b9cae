import StructuralTypes.Compatibility.Rule
import StructuralTypes.Limited
import StructuralTypes.Options
import StructuralTypes.Walk

set_option autoImplicit false

namespace StructuralTypes

/-- What the engine works with: the definitions and the settings. -/
structure Context where
  aliases : AliasMap := {}
  options : Options := {}

namespace Rule

/-- How queries are answered on a walk. -/
abbrev Answer := Query → Walk Query → Bool × Walk Query

/-- All demands are met. The first one that is not ends the search. -/
def runAll (answer : Answer) : List Demand → Walk Query → Bool × Walk Query
  | [], walk => (true, walk)
  | .refuse :: _, walk => (false, walk)
  | .query q :: demands, walk =>
    match answer q walk with
    | (true, walk) => runAll answer demands walk
    | (false, walk) => (false, walk)

/-- Some query has a positive answer. The first one ends the search. -/
def runAny (answer : Answer) : List Query → Walk Query → Bool × Walk Query
  | [], walk => (false, walk)
  | q :: queries, walk =>
    match answer q walk with
    | (true, walk) => (true, walk)
    | (false, walk) => runAny answer queries walk

def run (answer : Answer) : Rule → Walk Query → Bool × Walk Query
  | .allOf demands => runAll answer demands
  | .anyOf queries => runAny answer queries

end Rule

namespace Context

/-- Answers a query on a walk. A query that is met again inside of itself counts as compatible, so that
recursive types are compared by their infinite unfoldings. `levels` bounds the nesting. -/
def check (ctx : Context) : Nat → Query → Walk Query → Bool × Walk Query
  | 0, _, walk => (false, walk)
  | levels + 1, query, walk =>
    let q := query.concrete ctx.aliases
    match q.settled? with
    | some answer => (answer, walk)
    | none =>
      match walk.enter q with
      | (.entered, walk) =>
        let (answer, walk) := (Rule.of ctx.aliases q).run (ctx.check levels) walk
        (answer, walk.leave q)
      | (.cycle, walk) => (true, walk)
      | (.tooDeep, walk) => (false, walk)
      | (.tooMany, walk) => (false, walk)

/-- A walk refuses to nest deeper than this, so nothing is ever asked beyond the last level. -/
def levels (ctx : Context) : Nat := min ctx.options.maxDepth Limits.maxOpen + 1

/-- The walk of a new comparison. -/
def walk (ctx : Context) : Walk Query := { limits := ⟨ctx.options.maxDepth, Limits.maxEntries⟩ }

/-- Whether a value of the first type may go where the second is expected. -/
def compatible (ctx : Context) (value target : Ty) : Limited Bool :=
  let (answer, walk) := ctx.check ctx.levels ⟨value, target⟩ ctx.walk
  ⟨answer, walk.exceeded⟩

end Context

end StructuralTypes
