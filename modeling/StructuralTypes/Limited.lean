set_option autoImplicit false

namespace StructuralTypes

/-- A result, and whether a comparison on the way to it gave up. The answer of a comparison that gives
up is no more than a refusal. -/
structure Limited (α : Type) where
  value : α
  /-- Some comparison gave up at a limit. -/
  cut : Bool := false

namespace Limited

instance : Monad Limited where
  pure value := ⟨value, false⟩
  bind x f :=
    let y := f x.value
    ⟨y.value, x.cut || y.cut⟩

variable {α β : Type}

@[simp] theorem value_pure (a : α) : (pure a : Limited α).value = a := rfl

@[simp] theorem cut_pure (a : α) : (pure a : Limited α).cut = false := rfl

@[simp] theorem value_bind (x : Limited α) (f : α → Limited β) :
    (x >>= f).value = (f x.value).value := rfl

@[simp] theorem cut_bind (x : Limited α) (f : α → Limited β) :
    (x >>= f).cut = (x.cut || (f x.value).cut) := rfl

theorem pure_bind (a : α) (f : α → Limited β) : pure a >>= f = f a := rfl

/-- Whether a test holds of some item. The first such item ends the search. -/
def any (test : α → Limited Bool) : List α → Limited Bool
  | [] => return false
  | a :: as => do
    if ← test a then return true
    any test as

/-- The items of which a test holds. -/
def filter (test : α → Limited Bool) : List α → Limited (List α)
  | [] => return []
  | a :: as => do
    let keep ← test a
    let rest ← filter test as
    return if keep then a :: rest else rest

@[simp] theorem value_any (test : α → Limited Bool) (as : List α) :
    (any test as).value = as.any (fun a => (test a).value) := by
  induction as with
  | nil => rfl
  | cons a as ih => cases h : (test a).value <;> simp [any, h, ih]

@[simp] theorem value_filter (test : α → Limited Bool) (as : List α) :
    (filter test as).value = as.filter (fun a => (test a).value) := by
  induction as with
  | nil => rfl
  | cons a as ih => cases h : (test a).value <;> simp [filter, h, ih]

end Limited

end StructuralTypes
