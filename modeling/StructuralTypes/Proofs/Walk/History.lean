import StructuralTypes.Proofs.Walk

set_option autoImplicit false

namespace StructuralTypes.Walk

variable {Key : Type} [BEq Key]

/-- The states that a walk can come to, each with the answers that it gave since it was last reset.
Only a key that the walk is inside of is left. -/
inductive History (limits : Limits) : Walk Key → List Entry → Prop
  | start : History limits { limits := limits } []
  | enter {walk : Walk Key} {answers : List Entry} (before : History limits walk answers) (key : Key) :
    History limits (walk.enter key).2 (answers ++ [(walk.enter key).1])
  | leave {walk : Walk Key} {answers : List Entry} (before : History limits walk answers) (key : Key)
    (inside : ∃ entered ∈ walk.visiting, (entered == key) = true) :
    History limits (walk.leave key) answers
  | reset {walk : Walk Key} {answers : List Entry} (before : History limits walk answers) :
    History limits walk.reset []

/-- The state of a walk agrees with the answers that it gave. -/
structure Accounts (limits : Limits) (walk : Walk Key) (answers : List Entry) : Prop where
  bounded : walk.limits = limits
  balanced : walk.depth = walk.visiting.length
  distinct : walk.visiting.Pairwise fun a b => (a == b) = false
  limited : walk.depth ≤ min limits.depth Limits.maxOpen
  counted : walk.entries = min answers.length Limits.countCap
  exceeded : walk.exceeded = true ↔ .tooDeep ∈ answers ∨ .tooMany ∈ answers

/-- A walk that is inside of no key and was asked nothing. -/
theorem accounts_start (limits : Limits) : Accounts limits ({ limits := limits } : Walk Key) [] where
  bounded := rfl
  balanced := rfl
  distinct := .nil
  limited := Nat.zero_le _
  counted := (Nat.min_eq_left (Nat.zero_le _)).symm
  exceeded := by simp

namespace Accounts

variable {limits : Limits} {walk : Walk Key} {answers : List Entry} {key : Key}

/-- The number of this request, as far as 32 bits hold it. -/
theorem entries_counted (accounts : Accounts limits walk answers) :
    walk.counted.entries = min (answers.length + 1) Limits.countCap := by
  change min (walk.entries + 1) Limits.countCap = _
  rw [accounts.counted]
  omega

/-- The request is one too many exactly if it is beyond a limit that the count can reach. -/
theorem over_iff (accounts : Accounts limits walk answers) :
    walk.limits.entries < walk.counted.entries ↔
      limits.entries < answers.length + 1 ∧ limits.entries < Limits.countCap := by
  rw [accounts.bounded, accounts.entries_counted]
  omega

/-- A request that is not granted changes the count and the record of refusals. -/
theorem stay (accounts : Accounts limits walk answers) {after : Walk Key} {answer : Entry}
    (same : walk.Follows after) (number : after.entries = walk.counted.entries)
    (recorded : after.exceeded = true ↔ walk.exceeded = true ∨ answer = .tooDeep ∨ answer = .tooMany) :
    Accounts limits after (answers ++ [answer]) where
  bounded := same.limits.trans accounts.bounded
  balanced := by rw [same.depth, same.visiting, accounts.balanced]
  distinct := same.visiting ▸ accounts.distinct
  limited := same.depth ▸ accounts.limited
  counted := by rw [number, accounts.entries_counted, List.length_append, List.length_singleton]
  exceeded := by
    rw [recorded, accounts.exceeded]
    simp only [List.mem_append, List.mem_singleton, eq_comm (a := answer)]
    exact or_or_or_comm

theorem inside (accounts : Accounts limits walk answers)
    (new : walk.visiting.contains key = false) (shallow : walk.depth < limits.depth)
    (room : walk.visiting.length < Limits.maxOpen) :
    Accounts limits (walk.inside key) (answers ++ [.entered]) where
  bounded := accounts.bounded
  balanced := congrArg (· + 1) accounts.balanced
  distinct := by
    rw [List.contains_eq_any_beq, List.any_eq_false] at new
    exact .cons (fun other member => Bool.eq_false_iff.mpr (new other member)) accounts.distinct
  limited := by
    have balanced := accounts.balanced
    change walk.depth + 1 ≤ min limits.depth Limits.maxOpen
    omega
  counted := by
    rw [List.length_append, List.length_singleton]
    exact accounts.entries_counted
  exceeded := by
    change walk.exceeded = true ↔ _
    simp [accounts.exceeded]

theorem enter (accounts : Accounts limits walk answers) (key : Key) :
    Accounts limits (walk.enter key).2 (answers ++ [(walk.enter key).1]) := by
  have request := walk.enter_enters key
  generalize walk.enter key = outcome at request ⊢
  cases request with
  | entered new shallow room allowed => exact accounts.inside new (accounts.bounded ▸ shallow) room
  | cycle => exact accounts.stay walk.follows_counted rfl (by simp [Walk.counted])
  | tooDeep => exact accounts.stay walk.follows_refused rfl (by simp [refused])
  | tooMany => exact accounts.stay walk.follows_refused rfl (by simp [refused])

theorem leave (accounts : Accounts limits walk answers)
    (inside : ∃ entered ∈ walk.visiting, (entered == key) = true) :
    Accounts limits (walk.leave key) answers where
  bounded := accounts.bounded
  balanced := by
    obtain ⟨entered, member, equal⟩ := inside
    change walk.depth - 1 = (walk.visiting.erase key).length
    rw [List.erase_eq_eraseP', List.length_eraseP_of_mem member equal, accounts.balanced]
  distinct := accounts.distinct.sublist List.erase_sublist
  limited := Nat.le_trans (Nat.sub_le _ _) accounts.limited
  counted := accounts.counted
  exceeded := accounts.exceeded

theorem reset (accounts : Accounts limits walk answers) : Accounts limits walk.reset [] := by
  rw [Walk.reset, accounts.bounded]
  exact accounts_start limits

end Accounts

variable {limits : Limits} {walk : Walk Key} {answers : List Entry}

theorem History.accounts (history : History limits walk answers) : Accounts limits walk answers := by
  induction history with
  | start => exact accounts_start limits
  | enter before key ih => exact ih.enter key
  | leave before key inside ih => exact ih.leave inside
  | reset before ih => exact ih.reset

/-- A request that is not granted leaves the walk where it is. -/
theorem enter_refused {key : Key} (refused : (walk.enter key).1 ≠ .entered) :
    walk.Follows (walk.enter key).2 := by
  have request := walk.enter_enters key
  generalize walk.enter key = outcome at request refused ⊢
  cases request with
  | entered => exact absurd rfl refused
  | cycle => exact walk.follows_counted
  | tooDeep => exact walk.follows_refused
  | tooMany => exact walk.follows_refused

/-- Leaving a key that was just entered takes the walk back. -/
theorem follows_leave_enter [ReflBEq Key] {key : Key} (entered : (walk.enter key).1 = .entered) :
    walk.Follows ((walk.enter key).2.leave key) := by
  have request := walk.enter_enters key
  generalize walk.enter key = outcome at request entered ⊢
  cases request with
  | entered => exact follows_leave (.refl _)
  | cycle => cases entered
  | tooDeep => cases entered
  | tooMany => cases entered

/-- A key is entered only if it is new, and found to be a cycle only if it is not. -/
theorem contains_of_enter (walk : Walk Key) (key : Key) :
    ((walk.enter key).1 = .entered → walk.visiting.contains key = false ∧
        (walk.enter key).2.visiting = key :: walk.visiting) ∧
      ((walk.enter key).1 = .cycle → walk.visiting.contains key = true) := by
  have request := walk.enter_enters key
  generalize walk.enter key = outcome at request ⊢
  cases request with
  | entered new => exact ⟨fun _ => ⟨new, rfl⟩, nofun⟩
  | cycle known => exact ⟨nofun, fun _ => known⟩
  | tooDeep => exact ⟨nofun, nofun⟩
  | tooMany => exact ⟨nofun, nofun⟩

/-- The number of requests is tested before everything else. -/
theorem enter_tooMany_iff (walk : Walk Key) (key : Key) :
    (walk.enter key).1 = .tooMany ↔ walk.limits.entries < walk.counted.entries := by
  have request := walk.enter_enters key
  generalize walk.enter key = outcome at request ⊢
  cases request with
  | tooMany many => exact ⟨fun _ => many, fun _ => rfl⟩
  | entered _ _ _ allowed => exact ⟨nofun, fun many => absurd allowed (Nat.not_le_of_lt many)⟩
  | cycle _ _ allowed => exact ⟨nofun, fun many => absurd allowed (Nat.not_le_of_lt many)⟩
  | tooDeep _ allowed => exact ⟨nofun, fun many => absurd allowed (Nat.not_le_of_lt many)⟩

/-- What holds of a walk at all times: its depth is the number of keys that it is inside of, each
counted once, and within the limits; `exceeded` says whether a limit refused a request since the last
reset; and a further request is answered by these rules. -/
theorem history_accounted [ReflBEq Key] (history : History limits walk answers) :
    (walk.depth = walk.visiting.length ∧ (walk.visiting.Pairwise fun a b => (a == b) = false) ∧
      walk.depth ≤ min limits.depth Limits.maxOpen) ∧
    (walk.exceeded = true ↔ .tooDeep ∈ answers ∨ .tooMany ∈ answers) ∧
    ∀ key, ((walk.enter key).1 = .entered → walk.visiting.contains key = false ∧
        (walk.enter key).2.visiting = key :: walk.visiting) ∧
      ((walk.enter key).1 ≠ .entered →
        (walk.enter key).2.visiting = walk.visiting ∧ (walk.enter key).2.depth = walk.depth) ∧
      ((walk.enter key).1 = .cycle → walk.visiting.contains key = true) ∧
      ((walk.enter key).1 = .tooMany ↔
        limits.entries < answers.length + 1 ∧ limits.entries < Limits.countCap) ∧
      ((walk.enter key).1 = .entered → ((walk.enter key).2.leave key).visiting = walk.visiting ∧
        ((walk.enter key).2.leave key).depth = walk.depth) := by
  have accounts := history.accounts
  refine ⟨⟨accounts.balanced, accounts.distinct, accounts.limited⟩, accounts.exceeded, fun key => ?_⟩
  obtain ⟨new, known⟩ := walk.contains_of_enter key
  refine ⟨new, fun refused => ?_, known, ?_, fun entered => ?_⟩
  · have same := enter_refused refused
    exact ⟨same.visiting, same.depth⟩
  · rw [enter_tooMany_iff, accounts.over_iff]
  · have back := follows_leave_enter entered
    exact ⟨back.visiting, back.depth⟩

/-- One key at a time, and two requests. -/
def narrow : Limits := ⟨1, 2⟩

/-- The walk stays out of a second key, and the third request is one too many. -/
theorem narrow_accounted :
    let walk : Walk Nat := ((({ limits := narrow } : Walk Nat).enter 1).2.enter 2).2.leave 1
    walk.depth = 0 ∧ walk.exceeded = true ∧ (walk.enter 1).1 = .tooMany := by
  have fresh : History narrow ({ limits := narrow } : Walk Nat) [] := .start
  have history := ((fresh.enter 1).enter 2).leave 1 ⟨1, by decide, rfl⟩
  obtain ⟨⟨depth, _⟩, exceeded, request⟩ := history_accounted history
  obtain ⟨_, _, _, tooMany, _⟩ := request 1
  exact ⟨depth, exceeded.mpr (by decide), tooMany.mpr (by decide)⟩

end StructuralTypes.Walk
