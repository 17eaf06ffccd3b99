import Nominal.Type.Basic

/-!
# Equality of types

The `==` of names, variables and types is an equivalence relation. It is coarser than `=`: equal
types can differ in kinds, arities and in the cells of their variables.
-/

namespace Nominal

namespace Named

/-- Named types are equal exactly when their names are. -/
theorem beq_iff {first second : Named} : first == second ↔ first.name = second.name := by
  show (first.name == second.name) = true ↔ _
  rw [beq_iff_eq]

instance : EquivBEq Named where
  rfl := beq_iff.2 rfl
  symm h := beq_iff.2 (beq_iff.1 h).symm
  trans h h' := beq_iff.2 ((beq_iff.1 h).trans (beq_iff.1 h'))

end Named

namespace TypeVar

/-- Variables are equal exactly when their names and declarations are. -/
theorem beq_iff {first second : TypeVar} :
    first == second ↔ first.name = second.name ∧ first.declaration = second.declaration := by
  show (first.name == second.name && first.declaration == second.declaration) = true ↔ _
  rw [Bool.and_eq_true, beq_iff_eq, beq_iff_eq]

instance : EquivBEq TypeVar where
  rfl := beq_iff.2 ⟨rfl, rfl⟩
  symm h := beq_iff.2 ((beq_iff.1 h).imp Eq.symm Eq.symm)
  trans h h' := by
    obtain ⟨name, declaration⟩ := beq_iff.1 h
    obtain ⟨name', declaration'⟩ := beq_iff.1 h'
    exact beq_iff.2 ⟨name.trans name', declaration.trans declaration'⟩

end TypeVar

namespace Ty

variable {vars : TypeVar → TypeVar → Bool}

mutual
/-- Agreement is symmetric where the relation of the variables is. -/
theorem alike_comm (comm : ∀ x y, vars x y = vars y x) :
    (s t : Ty) → alike vars s t = alike vars t s
  | .named s, t => by cases t <;> simp [alike, BEq.comm (a := s)]
  | .applied owner raw args, t => by
      cases t with
      | applied owner' raw' args' =>
          simp only [alike, BEq.comm (a := raw.toNamed), alikeOption_comm comm owner owner',
            alikeList_comm comm args args']
      | _ => simp [alike]
  | .array component, t => by
      cases t with
      | array component' => simp only [alike, alike_comm comm component component']
      | _ => simp [alike]
  | .var s, t => by cases t <;> simp [alike, comm s]
  | .wildcard upper lower, t => by
      cases t with
      | wildcard upper' lower' =>
          simp only [alike, alike_comm comm upper upper', alikeOption_comm comm lower lower']
      | _ => simp [alike]

/-- Agreement of optional types is symmetric where the relation of the variables is. -/
theorem alikeOption_comm (comm : ∀ x y, vars x y = vars y x) :
    (s t : Option Ty) → alikeOption vars s t = alikeOption vars t s
  | none, t => by cases t <;> simp [alikeOption]
  | some s, t => by
      cases t with
      | none => simp [alikeOption]
      | some t => simp only [alikeOption, alike_comm comm s t]

/-- Agreement of lists is symmetric where the relation of the variables is. -/
theorem alikeList_comm (comm : ∀ x y, vars x y = vars y x) :
    (s t : List Ty) → alikeList vars s t = alikeList vars t s
  | [], t => by cases t <;> simp [alikeList]
  | first :: rest, t => by
      cases t with
      | nil => simp [alikeList]
      | cons first' rest' =>
          simp only [alikeList, alike_comm comm first first', alikeList_comm comm rest rest']
end

mutual
/-- Agreement is transitive where the relation of the variables is. -/
theorem alike_trans (trans : ∀ x y z, vars x y = true → vars y z = true → vars x z = true) :
    (s t u : Ty) → alike vars s t = true → alike vars t u = true → alike vars s u = true
  | .named s, t, u, h, h' => by
      cases t <;> cases u <;> simp only [alike, Bool.false_eq_true] at h h' ⊢
      exact BEq.trans h h'
  | .applied owner raw args, t, u, h, h' => by
      cases t <;> cases u <;> simp only [alike, Bool.and_eq_true, Bool.false_eq_true] at h h' ⊢
      exact ⟨⟨BEq.trans h.1.1 h'.1.1, alikeOption_trans trans owner _ _ h.1.2 h'.1.2⟩,
        alikeList_trans trans args _ _ h.2 h'.2⟩
  | .array component, t, u, h, h' => by
      cases t <;> cases u <;> simp only [alike, Bool.false_eq_true] at h h' ⊢
      exact alike_trans trans component _ _ h h'
  | .var s, t, u, h, h' => by
      cases t <;> cases u <;> simp only [alike, Bool.false_eq_true] at h h' ⊢
      exact trans _ _ _ h h'
  | .wildcard upper lower, t, u, h, h' => by
      cases t <;> cases u <;> simp only [alike, Bool.and_eq_true, Bool.false_eq_true] at h h' ⊢
      exact ⟨alike_trans trans upper _ _ h.1 h'.1, alikeOption_trans trans lower _ _ h.2 h'.2⟩

/-- Agreement of optional types is transitive where the relation of the variables is. -/
theorem alikeOption_trans (trans : ∀ x y z, vars x y = true → vars y z = true → vars x z = true) :
    (s t u : Option Ty) →
      alikeOption vars s t = true → alikeOption vars t u = true → alikeOption vars s u = true
  | none, t, u, h, h' => by cases t <;> cases u <;> simp_all [alikeOption]
  | some s, t, u, h, h' => by
      cases t <;> cases u <;> simp only [alikeOption, Bool.false_eq_true] at h h' ⊢
      exact alike_trans trans s _ _ h h'

/-- Agreement of lists is transitive where the relation of the variables is. -/
theorem alikeList_trans (trans : ∀ x y z, vars x y = true → vars y z = true → vars x z = true) :
    (s t u : List Ty) →
      alikeList vars s t = true → alikeList vars t u = true → alikeList vars s u = true
  | [], t, u, h, h' => by cases t <;> cases u <;> simp_all [alikeList]
  | first :: rest, t, u, h, h' => by
      cases t <;> cases u <;>
        simp only [alikeList, Bool.and_eq_true, Bool.false_eq_true] at h h' ⊢
      exact ⟨alike_trans trans first _ _ h.1 h'.1, alikeList_trans trans rest _ _ h.2 h'.2⟩
end

/-- A type is the same as itself. -/
theorem same_refl (t : Ty) : same t t = true := alike_refl TypeVar.beq_self t

/-- The order of the two types does not matter. -/
theorem same_comm (s t : Ty) : same s t = same t s := alike_comm (fun _ _ => BEq.comm) s t

/-- Types that are the same as one type are the same. -/
theorem same_trans (s t u : Ty) : same s t = true → same t u = true → same s u = true :=
  alike_trans (fun (x y z : TypeVar) (h : x == y) (h' : y == z) => BEq.trans h h') s t u

instance : EquivBEq Ty where
  rfl := (beq_eq_same _ _).trans (same_refl _)
  symm h := by rwa [beq_eq_same, same_comm, ← beq_eq_same]
  trans h h' := by
    rw [beq_eq_same] at h h' ⊢
    exact same_trans _ _ _ h h'

/-- Describing the same type is the `==` of optional types. -/
theorem alikeOption_eq_beq (s t : Option Ty) : alikeOption (· == ·) s t = (s == t) := by
  cases s with
  | none => cases t <;> simp [alikeOption]
  | some s => cases t <;> simp [alikeOption, beq_eq_same, same]

/-- Describing the same types is the `==` of lists of types. -/
theorem alikeList_eq_beq (s t : List Ty) : alikeList (· == ·) s t = (s == t) := by
  induction s generalizing t with
  | nil => cases t <;> simp [alikeList]
  | cons first rest ih => cases t <;> simp [alikeList, ih, beq_eq_same, same]

/-- Applied types are equal exactly when their names, owners and arguments are. -/
theorem applied_beq_applied (owner owner' : Option Ty) (raw raw' : ClassName)
    (args args' : List Ty) :
    (Ty.applied owner raw args == .applied owner' raw' args') =
      (raw.toNamed == raw' && owner == owner' && args == args') := by
  simp only [beq_eq_same, same, alike, alikeOption_eq_beq, alikeList_eq_beq]

end Ty

end Nominal
