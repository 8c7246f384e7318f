/-
  What a pattern visits.

  The parts of a pattern meet the nodes of an operation of its shape one after the other.
  `Visits p s vs` says that `s` has the shape of `p`, and lists what happens on the way: a
  wildcard leaves a value open, any other part that embeds a value tests and captures it.  The
  tests are not made there; whether they hold, each on the captures made before it, is
  `Accepted`.

  A pattern matches an operation if it has the shape and the tests hold, and the match holds
  what was left open and captured on the way (`apply_eq_some_iff`).
-/
import Codegen.Proofs.Selection.Matching

namespace Codegen.Pattern

/-- What happens where a part of a pattern meets a node. -/
inductive Visit where
  /-- A wildcard leaves a value open. -/
  | leaf (v : Value)
  /-- A part captures a value that passes its test. -/
  | capture (place : Part) (c : Capture) (test : Match → Bool)
  /-- A part captures the register that is written from here on. -/
  | write (place : Part) (r : Register) (test : Match → Bool)

namespace Visit

/-- Does the value pass, given the captures so far? -/
def accepts (m : Match) : Visit → Bool
  | leaf _ => true
  | capture _ _ test | write _ _ test => test m

/-- The match after the visit. -/
def note (m : Match) : Visit → Match
  | leaf v => m.leave v
  | capture place c _ => m.capture place c
  | write place r _ => { m.capture place (.register r) with written := some r }

/-- The value left open. -/
def leaf? : Visit → Option Value
  | leaf v => some v
  | capture .. | write .. => none

/-- The value captured and the place where it is kept. -/
def capture? : Visit → Option (Part × Capture)
  | leaf _ => none
  | capture place c _ => some (place, c)
  | write place r _ => some (place, .register r)

end Visit

/-- The values left open, in visiting order. -/
def leavesOf (vs : List Visit) : List Value := vs.filterMap Visit.leaf?

/-- The captures, in visiting order. -/
def capturesOf (vs : List Visit) : List (Part × Capture) := vs.filterMap Visit.capture?

/-- The operation has the shape of the pattern, and these are the visits of its nodes. -/
inductive Visits : Pattern → Stmt → List Visit → Prop
  | wild (v : Value) : Visits wild (.value v) [.leaf v]
  | const {k : Nat} {test : Test Word} (w : Word) :
    Visits (const k test) (.value (.const w)) [.capture (.own k) (.word w) (test · w)]
  | read {k : Nat} {test : Test Register} (r : Register) :
    Visits (read k test) (.value (.read r)) [.capture (.own k) (.register r) (test · r)]
  | write {k : Nat} {test : Test Register} {p : Pattern} {v : Value} {vs : List Visit} (r : Register)
      (h : Visits p (.value v) vs) :
    Visits (write k test p) (.write r v) (.write (.own k) r (test · r) :: vs)
  | load {p : Pattern} {a : Value} {vs : List Visit} (h : Visits p (.value a) vs) :
    Visits (load p) (.value (.load a)) vs
  | store {p q : Pattern} {a v : Value} {vs ws : List Visit} (hp : Visits p (.value a) vs)
      (hq : Visits q (.value v) ws) : Visits (store p q) (.store a v) (vs ++ ws)
  | binary {k : Nat} {test : Test BinaryOp} {p q : Pattern} {l r : Value} {vs ws : List Visit}
      (op : BinaryOp) (hp : Visits p (.value l) vs) (hq : Visits q (.value r) ws) :
    Visits (binary k test p q) (.value (.binary op l r))
      (.capture (.own k) (.binaryOp op) (test · op) :: (vs ++ ws))
  | unary {k : Nat} {test : Test UnaryOp} {p : Pattern} {v : Value} {vs : List Visit} (op : UnaryOp)
      (h : Visits p (.value v) vs) :
    Visits (unary k test p) (.value (.unary op v)) (.capture (.own k) (.unaryOp op) (test · op) :: vs)
  | address (l : Label) :
    Visits address (.value (.address l)) [.capture .label (.label l) fun _ => true]
  | call (f : Label) (n : Int) :
    Visits call (.value (.call f n)) [.capture .call (.call f n) fun _ => true]
  | ret (b : Bool) : Visits ret (.ret b) [.capture .ret (.ret b) fun _ => true]

/-- Each value passes its test, on the match as it is when the value is met. -/
def Accepted (m : Match) (vs : List Visit) : Prop :=
  ∀ before v after, vs = before ++ v :: after → v.accepts (before.foldl Visit.note m) = true

variable {p q : Pattern} {s : Stmt} {m m' : Match} {v : Visit} {vs ws : List Visit}

@[simp] theorem accepted_nil : Accepted m [] := by
  intro before v after h
  cases before <;> cases h

@[simp] theorem accepted_cons : Accepted m (v :: vs) ↔ v.accepts m = true ∧ Accepted (v.note m) vs := by
  constructor
  · intro h
    exact ⟨h [] v vs rfl, fun before w after e => h (v :: before) w after (by rw [e]; rfl)⟩
  · rintro ⟨hv, h⟩ before w after e
    cases before with
    | nil => cases e; exact hv
    | cons x before => cases e; exact h before w after rfl

theorem accepted_append :
    Accepted m (vs ++ ws) ↔ Accepted m vs ∧ Accepted (vs.foldl Visit.note m) ws := by
  induction vs generalizing m with
  | nil => simp
  | cons v vs ih => simp [ih, and_assoc]

/-! ## The shapes, one kind of pattern at a time -/

section
variable {k : Nat}

theorem visits_wild : Visits wild s vs ↔ ∃ v, s = .value v ∧ vs = [.leaf v] := by
  constructor
  · intro h; cases h with | wild v => exact ⟨v, rfl, rfl⟩
  · rintro ⟨v, rfl, rfl⟩; exact .wild v

theorem visits_const {test : Test Word} : Visits (const k test) s vs ↔
    ∃ w, s = .value (.const w) ∧ vs = [.capture (.own k) (.word w) (test · w)] := by
  constructor
  · intro h; cases h with | const w => exact ⟨w, rfl, rfl⟩
  · rintro ⟨w, rfl, rfl⟩; exact .const w

theorem visits_read {test : Test Register} : Visits (read k test) s vs ↔
    ∃ r, s = .value (.read r) ∧ vs = [.capture (.own k) (.register r) (test · r)] := by
  constructor
  · intro h; cases h with | read r => exact ⟨r, rfl, rfl⟩
  · rintro ⟨r, rfl, rfl⟩; exact .read r

theorem visits_write {test : Test Register} : Visits (write k test p) s vs ↔
    ∃ r v ws, s = .write r v ∧ Visits p (.value v) ws ∧ vs = .write (.own k) r (test · r) :: ws := by
  constructor
  · intro h; cases h with | write r h => exact ⟨r, _, _, rfl, h, rfl⟩
  · rintro ⟨r, v, ws, rfl, h, rfl⟩; exact .write r h

theorem visits_load : Visits (load p) s vs ↔ ∃ a, s = .value (.load a) ∧ Visits p (.value a) vs := by
  constructor
  · intro h; cases h with | load h => exact ⟨_, rfl, h⟩
  · rintro ⟨a, rfl, h⟩; exact .load h

theorem visits_store : Visits (store p q) s vs ↔
    ∃ a v us ws, s = .store a v ∧ Visits p (.value a) us ∧ Visits q (.value v) ws ∧ vs = us ++ ws := by
  constructor
  · intro h; cases h with | store hp hq => exact ⟨_, _, _, _, rfl, hp, hq, rfl⟩
  · rintro ⟨a, v, us, ws, rfl, hp, hq, rfl⟩; exact .store hp hq

theorem visits_binary {test : Test BinaryOp} : Visits (binary k test p q) s vs ↔
    ∃ op l r us ws, s = .value (.binary op l r) ∧ Visits p (.value l) us ∧ Visits q (.value r) ws ∧
      vs = .capture (.own k) (.binaryOp op) (test · op) :: (us ++ ws) := by
  constructor
  · intro h; cases h with | binary op hp hq => exact ⟨op, _, _, _, _, rfl, hp, hq, rfl⟩
  · rintro ⟨op, l, r, us, ws, rfl, hp, hq, rfl⟩; exact .binary op hp hq

theorem visits_unary {test : Test UnaryOp} : Visits (unary k test p) s vs ↔
    ∃ op v ws, s = .value (.unary op v) ∧ Visits p (.value v) ws ∧
      vs = .capture (.own k) (.unaryOp op) (test · op) :: ws := by
  constructor
  · intro h; cases h with | unary op h => exact ⟨op, _, _, rfl, h, rfl⟩
  · rintro ⟨op, v, ws, rfl, h, rfl⟩; exact .unary op h

theorem visits_address : Visits address s vs ↔
    ∃ l, s = .value (.address l) ∧ vs = [.capture .label (.label l) fun _ => true] := by
  constructor
  · intro h; cases h with | address l => exact ⟨l, rfl, rfl⟩
  · rintro ⟨l, rfl, rfl⟩; exact .address l

theorem visits_call : Visits call s vs ↔
    ∃ f n, s = .value (.call f n) ∧ vs = [.capture .call (.call f n) fun _ => true] := by
  constructor
  · intro h; cases h with | call f n => exact ⟨f, n, rfl, rfl⟩
  · rintro ⟨f, n, rfl, rfl⟩; exact .call f n

theorem visits_ret : Visits ret s vs ↔
    ∃ b, s = .ret b ∧ vs = [.capture .ret (.ret b) fun _ => true] := by
  constructor
  · intro h; cases h with | ret b => exact ⟨b, rfl, rfl⟩
  · rintro ⟨b, rfl, rfl⟩; exact .ret b

end

/-- **A pattern matches if the operation has its shape and the tests hold.** -/
theorem matchFrom_eq_some_iff : p.matchFrom s m = some m' ↔
    ∃ vs, Visits p s vs ∧ Accepted m vs ∧ vs.foldl Visit.note m = m' := by
  induction p generalizing s m m' with
  | wild =>
    simp only [matchFrom_wild, visits_wild]
    constructor
    · rintro ⟨v, rfl, rfl⟩; exact ⟨_, ⟨v, rfl, rfl⟩, by simp [Visit.accepts], rfl⟩
    · rintro ⟨_, ⟨v, rfl, rfl⟩, -, rfl⟩; exact ⟨v, rfl, rfl⟩
  | const k test =>
    simp only [matchFrom_const, visits_const]
    constructor
    · rintro ⟨w, rfl, hw, rfl⟩; exact ⟨_, ⟨w, rfl, rfl⟩, accepted_cons.2 ⟨hw, accepted_nil⟩, rfl⟩
    · rintro ⟨_, ⟨w, rfl, rfl⟩, hw, rfl⟩; exact ⟨w, rfl, (accepted_cons.1 hw).1, rfl⟩
  | read k test =>
    simp only [matchFrom_read, visits_read]
    constructor
    · rintro ⟨r, rfl, hr, rfl⟩; exact ⟨_, ⟨r, rfl, rfl⟩, accepted_cons.2 ⟨hr, accepted_nil⟩, rfl⟩
    · rintro ⟨_, ⟨r, rfl, rfl⟩, hr, rfl⟩; exact ⟨r, rfl, (accepted_cons.1 hr).1, rfl⟩
  | write k test p ih =>
    simp only [matchFrom_write, visits_write, ih]
    constructor
    · rintro ⟨r, v, rfl, hr, vs, hvs, ha, rfl⟩
      exact ⟨_, ⟨r, v, vs, rfl, hvs, rfl⟩, accepted_cons.2 ⟨hr, ha⟩, rfl⟩
    · rintro ⟨_, ⟨r, v, vs, rfl, hvs, rfl⟩, ha, rfl⟩
      obtain ⟨hr, ha⟩ := accepted_cons.1 ha
      exact ⟨r, v, rfl, hr, vs, hvs, ha, rfl⟩
  | load p ih =>
    simp only [matchFrom_load, visits_load, ih]
    constructor
    · rintro ⟨a, rfl, vs, hvs, ha, rfl⟩; exact ⟨vs, ⟨a, rfl, hvs⟩, ha, rfl⟩
    · rintro ⟨vs, ⟨a, rfl, hvs⟩, ha, rfl⟩; exact ⟨a, rfl, vs, hvs, ha, rfl⟩
  | store p q ihp ihq =>
    simp only [matchFrom_store, visits_store, ihp, ihq]
    constructor
    · rintro ⟨a, v, rfl, _, ⟨us, hus, ha, rfl⟩, ws, hws, hb, rfl⟩
      exact ⟨_, ⟨a, v, us, ws, rfl, hus, hws, rfl⟩, accepted_append.2 ⟨ha, hb⟩, List.foldl_append⟩
    · rintro ⟨_, ⟨a, v, us, ws, rfl, hus, hws, rfl⟩, hab, rfl⟩
      obtain ⟨ha, hb⟩ := accepted_append.1 hab
      exact ⟨a, v, rfl, _, ⟨us, hus, ha, rfl⟩, ws, hws, hb, List.foldl_append.symm⟩
  | binary k test p q ihp ihq =>
    simp only [matchFrom_binary, visits_binary, ihp, ihq]
    constructor
    · rintro ⟨op, l, r, rfl, hop, _, ⟨us, hus, ha, rfl⟩, ws, hws, hb, rfl⟩
      exact ⟨_, ⟨op, l, r, us, ws, rfl, hus, hws, rfl⟩,
        accepted_cons.2 ⟨hop, accepted_append.2 ⟨ha, hb⟩⟩, List.foldl_append⟩
    · rintro ⟨_, ⟨op, l, r, us, ws, rfl, hus, hws, rfl⟩, hab, rfl⟩
      obtain ⟨hop, hab⟩ := accepted_cons.1 hab
      obtain ⟨ha, hb⟩ := accepted_append.1 hab
      exact ⟨op, l, r, rfl, hop, _, ⟨us, hus, ha, rfl⟩, ws, hws, hb, List.foldl_append.symm⟩
  | unary k test p ih =>
    simp only [matchFrom_unary, visits_unary, ih]
    constructor
    · rintro ⟨op, v, rfl, hop, vs, hvs, ha, rfl⟩
      exact ⟨_, ⟨op, v, vs, rfl, hvs, rfl⟩, accepted_cons.2 ⟨hop, ha⟩, rfl⟩
    · rintro ⟨_, ⟨op, v, vs, rfl, hvs, rfl⟩, ha, rfl⟩
      obtain ⟨hop, ha⟩ := accepted_cons.1 ha
      exact ⟨op, v, rfl, hop, vs, hvs, ha, rfl⟩
  | address =>
    simp only [matchFrom_address, visits_address]
    constructor
    · rintro ⟨l, rfl, rfl⟩; exact ⟨_, ⟨l, rfl, rfl⟩, by simp [Visit.accepts], rfl⟩
    · rintro ⟨_, ⟨l, rfl, rfl⟩, -, rfl⟩; exact ⟨l, rfl, rfl⟩
  | call =>
    simp only [matchFrom_call, visits_call]
    constructor
    · rintro ⟨f, n, rfl, rfl⟩; exact ⟨_, ⟨f, n, rfl, rfl⟩, by simp [Visit.accepts], rfl⟩
    · rintro ⟨_, ⟨f, n, rfl, rfl⟩, -, rfl⟩; exact ⟨f, n, rfl, rfl⟩
  | ret =>
    simp only [matchFrom_ret, visits_ret]
    constructor
    · rintro ⟨b, rfl, rfl⟩; exact ⟨_, ⟨b, rfl, rfl⟩, by simp [Visit.accepts], rfl⟩
    · rintro ⟨_, ⟨b, rfl, rfl⟩, -, rfl⟩; exact ⟨b, rfl, rfl⟩

theorem apply_eq_some_iff : p.apply s = some m ↔
    ∃ vs, Visits p s vs ∧ Accepted {} vs ∧ vs.foldl Visit.note {} = m :=
  matchFrom_eq_some_iff

/-- The pattern and the operation determine the visits. -/
theorem Visits.unique (h : Visits p s vs) (h' : Visits p s ws) : vs = ws := by
  induction h generalizing ws with
  | wild | const | read | address | call | ret => cases h'; rfl
  | write r _ ih => cases h' with | write _ h' => rw [ih h']
  | load _ ih => cases h' with | load h' => exact ih h'
  | store _ _ ihp ihq => cases h' with | store hp hq => rw [ihp hp, ihq hq]
  | binary op _ _ ihp ihq => cases h' with | binary _ hp hq => rw [ihp hp, ihq hq]
  | unary op _ ih => cases h' with | unary _ h' => rw [ih h']

/-! ## What the match holds -/

@[simp] theorem leavesOf_nil : leavesOf [] = [] := rfl

@[simp] theorem leavesOf_cons : leavesOf (v :: vs) = v.leaf?.toList ++ leavesOf vs := by
  cases v <;> rfl

@[simp] theorem leavesOf_append : leavesOf (vs ++ ws) = leavesOf vs ++ leavesOf ws :=
  List.filterMap_append

@[simp] theorem capturesOf_nil : capturesOf [] = [] := rfl

@[simp] theorem capturesOf_cons : capturesOf (v :: vs) = v.capture?.toList ++ capturesOf vs := by
  cases v <;> rfl

@[simp] theorem capturesOf_append : capturesOf (vs ++ ws) = capturesOf vs ++ capturesOf ws :=
  List.filterMap_append

theorem leaves_foldl_note (m : Match) (vs : List Visit) :
    (vs.foldl Visit.note m).leaves = m.leaves ++ leavesOf vs := by
  induction vs generalizing m with
  | nil => simp
  | cons v vs ih => cases v <;> simp [ih, Visit.note, Visit.leaf?]

theorem captures_foldl_note (m : Match) (vs : List Visit) :
    (vs.foldl Visit.note m).captures = (capturesOf vs).reverse ++ m.captures := by
  induction vs generalizing m with
  | nil => simp
  | cons v vs ih => cases v <;> simp [ih, Visit.note, Visit.capture?, Match.capture, Match.leave]

end Codegen.Pattern
