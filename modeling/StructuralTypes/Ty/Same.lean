import StructuralTypes.Ty

set_option autoImplicit false

namespace StructuralTypes.Ty

mutual

/-- Structural equality. Members of unions and intersections compare as sets and properties as maps;
whether an object literal is fresh is not looked at. -/
def same : Ty → Ty → Bool
  | primitive a, primitive b => a == b
  | literal a, literal b => a.same b
  | array a, array b => a.same b
  | tuple as, tuple bs => sameEach as bs
  | object ⟨ps, i, c, _⟩, object ⟨qs, j, d, _⟩ =>
    ps.length == qs.length && sameProperties ps qs && sameIndex i j && c == d
  | record k v, record k' v' => k.same k' && v.same v'
  | unionOf as, unionOf bs => as.length == bs.length && sameAmong as bs
  | intersectionOf as, intersectionOf bs => as.length == bs.length && sameAmong as bs
  | anyFunction, anyFunction => true
  | function ⟨ts, ps, r⟩, function ⟨us, qs, r'⟩ =>
    sameTypeParams ts us && sameEach ps qs && r.same r'
  | ref a, ref b => a == b
  | keyof a, keyof b => a.same b
  | predicate p a, predicate q b => p == q && a.same b
  | _, _ => false
termination_by structural a => a

/-- Equal position by position. -/
def sameEach : List Ty → List Ty → Bool
  | [], [] => true
  | a :: as, b :: bs => a.same b && sameEach as bs
  | _, _ => false
termination_by structural as => as

/-- Every type of the first list equals some type of the second. -/
def sameAmong : List Ty → List Ty → Bool
  | [], _ => true
  | a :: as, bs => bs.any (fun b => a.same b) && sameAmong as bs
termination_by structural as => as

/-- Every property of the first list has an equal one of its name in the second. -/
def sameProperties : List (Property Ty) → List (Property Ty) → Bool
  | [], _ => true
  | ⟨name, ty, optional⟩ :: ps, qs =>
    qs.any (fun q => q.name == name && ty.same q.ty && optional == q.optional) &&
      sameProperties ps qs
termination_by structural ps => ps

def sameIndex : Option (IndexSignature Ty) → Option (IndexSignature Ty) → Bool
  | none, none => true
  | some ⟨k, v⟩, some ⟨k', v'⟩ => k.same k' && v.same v'
  | _, _ => false
termination_by structural i => i

def sameTypeParams : List (TypeParam Ty) → List (TypeParam Ty) → Bool
  | [], [] => true
  | ⟨m, none⟩ :: ts, ⟨n, none⟩ :: us => m == n && sameTypeParams ts us
  | ⟨m, some c⟩ :: ts, ⟨n, some d⟩ :: us => m == n && c.same d && sameTypeParams ts us
  | _, _ => false
termination_by structural ts => ts

end

/-- Some type of the list equals the given one. -/
def isAmong (ty : Ty) (tys : List Ty) : Bool := tys.any (fun other => other.same ty)

end StructuralTypes.Ty
