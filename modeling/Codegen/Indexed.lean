/-
  Vectors indexed by positions.

  A position of a vector is a `Fin`, so that reading and writing cannot fail.
  The two statements say what is read after one entry was written.
-/

namespace Codegen.Indexed

variable {α : Type} {n : Nat}

/-- The entry that was written is read back. -/
@[simp]
theorem get_set_self (v : Vector α n) (i : Fin n) (a : α) : (v.set i a i.isLt).get i = a :=
  Vector.getElem_set_self i.isLt

/-- Every other entry is what it was. -/
theorem get_set_ne (v : Vector α n) {i j : Fin n} (a : α) (h : j ≠ i) :
    (v.set i a i.isLt).get j = v.get j :=
  Vector.getElem_set_ne i.isLt j.isLt fun e => h (Fin.ext e.symm)

end Codegen.Indexed
