/-
  What a match tells about a tree.

  One lemma for each kind of pattern says when it matches and what the match then
  holds.  What a match leaves open are parts of the tree (`leaves_subtree`).
-/
import Codegen.Pattern.Basic
import Codegen.Proofs.Meaning.Body

namespace Codegen

namespace Match

variable (m : Match) (p q : Part) (c : Capture) (v : Value)

@[simp] theorem leaves_capture : (m.capture p c).leaves = m.leaves := rfl

@[simp] theorem leaves_leave : (m.leave v).leaves = m.leaves ++ [v] := rfl

@[simp] theorem written_capture : (m.capture p c).written = m.written := rfl

@[simp] theorem written_leave : (m.leave v).written = m.written := rfl

@[simp] theorem get?_leave : (m.leave v).get? p = m.get? p := rfl

theorem get?_capture : (m.capture p c).get? q = if q = p then some c else m.get? q := by
  by_cases h : q = p
  · simp [get?, capture, h]
  · have hqp : (q == p) = false := by simpa using h
    simp [get?, capture, List.lookup_cons, hqp, h]

@[simp] theorem get?_capture_self : (m.capture p c).get? p = some c := by
  rw [get?_capture, if_pos rfl]

end Match

namespace Pattern

variable {m m' : Match} {s : Stmt} {k : Nat} {p q : Pattern}

section
-- the lemmas below open the definition, nothing after them does
attribute [local simp] matchFrom

@[simp] theorem matchFrom_wild :
    wild.matchFrom s m = some m' ↔ ∃ v, s = .value v ∧ m.leave v = m' := by
  cases s <;> simp

@[simp] theorem matchFrom_const {test : Test Word} :
    (const k test).matchFrom s m = some m' ↔
      ∃ w, s = .value (.const w) ∧ test m w = true ∧ m.capture (.own k) (.word w) = m' := by
  cases s with
  | value v => cases v <;> simp
  | _ => simp

@[simp] theorem matchFrom_read {test : Test Register} :
    (read k test).matchFrom s m = some m' ↔
      ∃ r, s = .value (.read r) ∧ test m r = true ∧ m.capture (.own k) (.register r) = m' := by
  cases s with
  | value v => cases v <;> simp
  | _ => simp

@[simp] theorem matchFrom_write {test : Test Register} :
    (write k test p).matchFrom s m = some m' ↔
      ∃ r v, s = .write r v ∧ test m r = true ∧
        p.matchFrom (.value v) { m.capture (.own k) (.register r) with written := some r } = some m' := by
  cases s <;> simp [and_assoc]

@[simp] theorem matchFrom_load :
    (load p).matchFrom s m = some m' ↔
      ∃ a, s = .value (.load a) ∧ p.matchFrom (.value a) m = some m' := by
  cases s with
  | value v => cases v <;> simp
  | _ => simp

@[simp] theorem matchFrom_store :
    (store p q).matchFrom s m = some m' ↔
      ∃ a v, s = .store a v ∧
        ∃ m₁, p.matchFrom (.value a) m = some m₁ ∧ q.matchFrom (.value v) m₁ = some m' := by
  cases s <;> simp [Option.bind_eq_some_iff, and_assoc]

@[simp] theorem matchFrom_binary {test : Test BinaryOp} :
    (binary k test p q).matchFrom s m = some m' ↔
      ∃ op l r, s = .value (.binary op l r) ∧ test m op = true ∧
        ∃ m₁, p.matchFrom (.value l) (m.capture (.own k) (.binaryOp op)) = some m₁ ∧
          q.matchFrom (.value r) m₁ = some m' := by
  cases s with
  | value v => cases v <;> simp [Option.bind_eq_some_iff, and_assoc]
  | _ => simp

@[simp] theorem matchFrom_unary {test : Test UnaryOp} :
    (unary k test p).matchFrom s m = some m' ↔
      ∃ op v, s = .value (.unary op v) ∧ test m op = true ∧
        p.matchFrom (.value v) (m.capture (.own k) (.unaryOp op)) = some m' := by
  cases s with
  | value v => cases v <;> simp [and_assoc]
  | _ => simp

@[simp] theorem matchFrom_address :
    address.matchFrom s m = some m' ↔
      ∃ l, s = .value (.address l) ∧ m.capture .label (.label l) = m' := by
  cases s with
  | value v => cases v <;> simp
  | _ => simp

@[simp] theorem matchFrom_call :
    call.matchFrom s m = some m' ↔
      ∃ f n, s = .value (.call f n) ∧ m.capture .call (.call f n) = m' := by
  cases s with
  | value v => cases v <;> simp [and_assoc]
  | _ => simp

@[simp] theorem matchFrom_ret :
    ret.matchFrom s m = some m' ↔ ∃ b, s = .ret b ∧ m.capture .ret (.ret b) = m' := by
  cases s <;> simp

end

/-- What a match leaves open was open already or is a part of the operation. -/
theorem leaves_subtree (h : p.matchFrom s m = some m') :
    ∀ v ∈ m'.leaves, v ∈ m.leaves ∨ ∃ u ∈ s.values, v.Subtree u := by
  induction p generalizing s m m' with
  | wild =>
    obtain ⟨v, rfl, rfl⟩ := matchFrom_wild.1 h
    intro u hu
    rw [Match.leaves_leave, List.mem_append, List.mem_singleton] at hu
    rcases hu with hu | rfl
    · exact Or.inl hu
    · exact Or.inr ⟨u, by simp [Stmt.values], .refl u⟩
  | const k test =>
    obtain ⟨w, rfl, -, rfl⟩ := matchFrom_const.1 h
    exact fun u hu => Or.inl hu
  | read k test =>
    obtain ⟨r, rfl, -, rfl⟩ := matchFrom_read.1 h
    exact fun u hu => Or.inl hu
  | write k test p ih =>
    obtain ⟨r, v, rfl, -, h⟩ := matchFrom_write.1 h
    exact fun u hu => ih h u hu
  | load p ih =>
    obtain ⟨a, rfl, h⟩ := matchFrom_load.1 h
    intro u hu
    refine (ih h u hu).imp_right fun ⟨x, hx, hsub⟩ => ⟨.load a, by simp [Stmt.values], ?_⟩
    obtain rfl : x = a := by simpa [Stmt.values] using hx
    exact .load hsub
  | store p q ihp ihq =>
    obtain ⟨a, v, rfl, m₁, h₁, h⟩ := matchFrom_store.1 h
    intro u hu
    rcases ihq h u hu with hu | ⟨x, hx, hsub⟩
    · refine (ihp h₁ u hu).imp_right fun ⟨x, hx, hsub⟩ => ⟨a, by simp [Stmt.values], ?_⟩
      obtain rfl : x = a := by simpa [Stmt.values] using hx
      exact hsub
    · obtain rfl : x = v := by simpa [Stmt.values] using hx
      exact Or.inr ⟨x, by simp [Stmt.values], hsub⟩
  | binary k test p q ihp ihq =>
    obtain ⟨op, l, r, rfl, -, m₁, h₁, h⟩ := matchFrom_binary.1 h
    intro u hu
    rcases ihq h u hu with hu | ⟨x, hx, hsub⟩
    · refine (ihp h₁ u hu).imp_right fun ⟨x, hx, hsub⟩ => ⟨.binary op l r, by simp [Stmt.values], ?_⟩
      obtain rfl : x = l := by simpa [Stmt.values] using hx
      exact .left hsub
    · obtain rfl : x = r := by simpa [Stmt.values] using hx
      exact Or.inr ⟨.binary op l x, by simp [Stmt.values], .right hsub⟩
  | unary k test p ih =>
    obtain ⟨op, v, rfl, -, h⟩ := matchFrom_unary.1 h
    intro u hu
    refine (ih h u hu).imp_right fun ⟨x, hx, hsub⟩ => ⟨.unary op v, by simp [Stmt.values], ?_⟩
    obtain rfl : x = v := by simpa [Stmt.values] using hx
    exact .unary hsub
  | address =>
    obtain ⟨l, rfl, rfl⟩ := matchFrom_address.1 h
    exact fun u hu => Or.inl hu
  | call =>
    obtain ⟨f, n, rfl, rfl⟩ := matchFrom_call.1 h
    exact fun u hu => Or.inl hu
  | ret =>
    obtain ⟨b, rfl, rfl⟩ := matchFrom_ret.1 h
    exact fun u hu => Or.inl hu

end Pattern

end Codegen
