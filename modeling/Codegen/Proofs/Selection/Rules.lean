/-
  What the rules of the machine match.

  One case for each rule: the operations that its pattern accepts, and what the
  match then holds.  Later proofs take matches apart with it and never look at
  patterns.
-/
import Codegen.Proofs.Selection.Matching

namespace Codegen.Amd64

/-- The rule computes the value, with the given match. -/
inductive ValueMatches : Rule → Value → Match → Prop
  | const (w : Word) : ValueMatches const (.const w) { captures := [(.own 1, .word w)] }
  | read (r : Register) : ValueMatches read (.read r) { captures := [(.own 4, .register r)] }
  | loadLabel (l : Label) {d : Word} (hd : d.fits32 = true) :
    ValueMatches loadLabel (.load (.binary .add (.address l) (.const d)))
      { captures := [(.own 1, .word d), (.label, .label l), (.own 5, .binaryOp .add)] }
  | loadOffset {op : BinaryOp} (b : Register) {d : Word} (hop : op = .add ∨ op = .sub)
      (hd : d.fits32 = true) :
    ValueMatches loadOffset (.load (.binary op (.read b) (.const d)))
      { captures := [(.own 1, .word d), (.own 3, .register b), (.own 5, .binaryOp op)] }
  | loadAny (a : Value) : ValueMatches loadAny (.load a) { leaves := [a] }
  | address (l : Label) : ValueMatches address (.address l) { captures := [(.label, .label l)] }
  | call (f : Label) (n : Int) : ValueMatches call (.call f n) { captures := [(.call, .call f n)] }
  | unary (op : UnaryOp) (v : Value) :
    ValueMatches unary (.unary op v) { leaves := [v], captures := [(.own 5, .unaryOp op)] }
  | arithConst {op : BinaryOp} (l : Value) {d : Word}
      (hop : op ∈ [BinaryOp.add, .sub, .and, .or, .xor]) (hd : d.fits32 = true) :
    ValueMatches arithConst (.binary op l (.const d))
      { leaves := [l], captures := [(.own 1, .word d), (.own 5, .binaryOp op)] }
  | arithAny {op : BinaryOp} (l r : Value) (hop : op ∈ [BinaryOp.add, .sub, .mul, .and, .or, .xor]) :
    ValueMatches arithAny (.binary op l r) { leaves := [l, r], captures := [(.own 5, .binaryOp op)] }
  | compare {op : BinaryOp} (l r : Value) (hop : op ∈ BinaryOp.comparisons) :
    ValueMatches compare (.binary op l r) { leaves := [l, r], captures := [(.own 5, .binaryOp op)] }

/-- The rule writes the value to the register, with the given match. -/
inductive WriteMatches (r : Register) : Rule → Value → Match → Prop
  | const (w : Word) : WriteMatches r writeConst (.const w)
      { captures := [(.own 1, .word w), (.own 0, .register r)], written := some r }
  | update {op : BinaryOp} {d : Word} (hop : op ∈ [BinaryOp.add, .sub, .and, .or, .xor])
      (hd : d.fits32 = true) :
    WriteMatches r writeUpdate (.binary op (.read r) (.const d))
      { captures := [(.own 1, .word d), (.own 4, .register r), (.own 5, .binaryOp op),
          (.own 0, .register r)], written := some r }
  | loadLabel (l : Label) {d : Word} (hd : d.fits32 = true) :
    WriteMatches r writeLoadLabel (.load (.binary .add (.address l) (.const d)))
      { captures := [(.own 1, .word d), (.label, .label l), (.own 5, .binaryOp .add),
          (.own 0, .register r)], written := some r }
  | loadOffset {op : BinaryOp} (b : Register) {d : Word} (hop : op = .add ∨ op = .sub)
      (hd : d.fits32 = true) :
    WriteMatches r writeLoadOffset (.load (.binary op (.read b) (.const d)))
      { captures := [(.own 1, .word d), (.own 3, .register b), (.own 5, .binaryOp op),
          (.own 0, .register r)], written := some r }
  | load (a : Value) : WriteMatches r writeLoad (.load a)
      { leaves := [a], captures := [(.own 0, .register r)], written := some r }
  | any (v : Value) : WriteMatches r writeAny v
      { leaves := [v], captures := [(.own 0, .register r)], written := some r }

/-- The rule stores the second value at the first one, with the given match. -/
inductive StoreMatches : Rule → Value → Value → Match → Prop
  | label (l : Label) {d : Word} (v : Value) (hd : d.fits32 = true) :
    StoreMatches storeLabel (.binary .add (.address l) (.const d)) v
      { leaves := [v],
        captures := [(.own 1, .word d), (.label, .label l), (.own 5, .binaryOp .add)] }
  | offsetConst {op : BinaryOp} (b : Register) {d w : Word} (hop : op = .add ∨ op = .sub)
      (hd : d.fits32 = true) (hw : w.fits32 = true) :
    StoreMatches storeOffsetConst (.binary op (.read b) (.const d)) (.const w)
      { captures := [(.own 2, .word w), (.own 1, .word d), (.own 3, .register b),
          (.own 5, .binaryOp op)] }
  | offsetReg {op : BinaryOp} (b r : Register) {d : Word} (hop : op = .add ∨ op = .sub)
      (hd : d.fits32 = true) :
    StoreMatches storeOffsetReg (.binary op (.read b) (.const d)) (.read r)
      { captures := [(.own 4, .register r), (.own 1, .word d), (.own 3, .register b),
          (.own 5, .binaryOp op)] }
  | const (a : Value) {w : Word} (hw : w.fits32 = true) :
    StoreMatches storeConst a (.const w) { leaves := [a], captures := [(.own 2, .word w)] }
  | any (a v : Value) : StoreMatches storeAny a v { leaves := [a, v] }

/-- The rule matches the operation with the given match. -/
inductive Matches : Rule → Stmt → Match → Prop
  | value {rule : Rule} {v : Value} {found : Match} (h : ValueMatches rule v found) :
    Matches rule (.value v) found
  | write {rule : Rule} {r : Register} {v : Value} {found : Match} (h : WriteMatches r rule v found) :
    Matches rule (.write r v) found
  | store {rule : Rule} {a v : Value} {found : Match} (h : StoreMatches rule a v found) :
    Matches rule (.store a v) found
  | ret (hasValue : Bool) : Matches ret (.ret hasValue) { captures := [(.ret, .ret hasValue)] }

theorem Matches.valueMatches {rule : Rule} {v : Value} {found : Match} (h : Matches rule (.value v) found) :
    ValueMatches rule v found := by
  cases h with
  | value h => exact h

theorem Matches.writeMatches {rule : Rule} {r : Register} {v : Value} {found : Match}
    (h : Matches rule (.write r v) found) : WriteMatches r rule v found := by
  cases h with
  | write h => exact h

/-- What may update a register in place is arithmetic. -/
theorem mem_arithmetic {op : BinaryOp} (h : op ∈ [BinaryOp.add, .sub, .and, .or, .xor]) :
    op ∈ [BinaryOp.add, .sub, .mul, .and, .or, .xor] :=
  (by decide : [BinaryOp.add, .sub, .and, .or, .xor] ⊆ [.add, .sub, .mul, .and, .or, .xor]) h

section
variable {s : Stmt} {m m' found : Match}

theorem matchFrom_labelOffset (h : labelOffset.matchFrom s m = some m') :
    ∃ (l : Label) (d : Word), d.fits32 = true ∧ s = .value (.binary .add (.address l) (.const d)) ∧
      ((m.capture (.own 5) (.binaryOp .add)).capture .label (.label l)).capture (.own 1) (.word d) = m' := by
  obtain ⟨op, x, y, rfl, hop, m₁, h₁, h⟩ := Pattern.matchFrom_binary.1 h
  obtain ⟨l, hl, rfl⟩ := Pattern.matchFrom_address.1 h₁
  obtain ⟨d, hd, hfits, rfl⟩ := Pattern.matchFrom_const.1 h
  cases hl
  cases hd
  cases of_decide_eq_true hop
  exact ⟨l, d, hfits, rfl, rfl⟩

theorem matchFrom_registerOffset (h : registerOffset.matchFrom s m = some m') :
    ∃ (op : BinaryOp) (b : Register) (d : Word), (op = .add ∨ op = .sub) ∧ d.fits32 = true ∧
      s = .value (.binary op (.read b) (.const d)) ∧
      ((m.capture (.own 5) (.binaryOp op)).capture (.own 3) (.register b)).capture (.own 1) (.word d) = m' := by
  obtain ⟨op, x, y, rfl, hop, m₁, h₁, h⟩ := Pattern.matchFrom_binary.1 h
  obtain ⟨b, hb, -, rfl⟩ := Pattern.matchFrom_read.1 h₁
  obtain ⟨d, hd, hfits, rfl⟩ := Pattern.matchFrom_const.1 h
  cases hb
  cases hd
  exact ⟨op, b, d, by simpa [Test.anyOf] using hop, hfits, rfl, rfl⟩

theorem matchFrom_update {left : Pattern} (h : (update left).matchFrom s m = some m') :
    ∃ (op : BinaryOp) (l : Value) (d : Word) (m₁ : Match),
      op ∈ [BinaryOp.add, .sub, .and, .or, .xor] ∧ d.fits32 = true ∧
      s = .value (.binary op l (.const d)) ∧
      left.matchFrom (.value l) (m.capture (.own 5) (.binaryOp op)) = some m₁ ∧
      m₁.capture (.own 1) (.word d) = m' := by
  obtain ⟨op, x, y, rfl, hop, m₁, h₁, h⟩ := Pattern.matchFrom_binary.1 h
  obtain ⟨d, hd, hfits, rfl⟩ := Pattern.matchFrom_const.1 h
  cases hd
  exact ⟨op, x, d, m₁, List.contains_iff_mem.1 hop, hfits, rfl, h₁, rfl⟩

theorem matchFrom_pair {k : Nat} {test : Test BinaryOp}
    (h : (Pattern.binary k test .wild .wild).matchFrom s m = some m') :
    ∃ op l r, s = .value (.binary op l r) ∧ test m op = true ∧
      ((m.capture (.own k) (.binaryOp op)).leave l).leave r = m' := by
  obtain ⟨op, x, y, rfl, hop, m₁, h₁, h⟩ := Pattern.matchFrom_binary.1 h
  obtain ⟨l, hl, rfl⟩ := Pattern.matchFrom_wild.1 h₁
  obtain ⟨r, hr, rfl⟩ := Pattern.matchFrom_wild.1 h
  cases hl
  cases hr
  exact ⟨op, x, y, rfl, hop, rfl⟩

theorem apply_dst {p : Pattern} (h : (dst p).apply s = some found) :
    ∃ r v, s = .write r v ∧
      p.matchFrom (.value v) { captures := [(.own 0, .register r)], written := some r } = some found := by
  obtain ⟨r, v, rfl, -, h⟩ := Pattern.matchFrom_write.1 h
  exact ⟨r, v, rfl, h⟩

end

/-- The rules that compute values. -/
def valueRules : List Rule :=
  [const, read, loadLabel, loadOffset, loadAny, address, call, arithConst, arithAny, unary, compare]

/-- The rules that write registers. -/
def writeRules : List Rule :=
  [writeConst, writeUpdate, writeLoadLabel, writeLoadOffset, writeLoad, writeAny]

/-- The rules that store words. -/
def storeRules : List Rule := [storeLabel, storeOffsetConst, storeOffsetReg, storeConst, storeAny]

theorem mem_trees {rule : Rule} (h : rule ∈ catalogue.trees) :
    rule ∈ valueRules ∨ rule ∈ writeRules ∨ rule ∈ storeRules ∨ rule = ret := by
  simp only [catalogue, valueRules, writeRules, storeRules, List.mem_cons, List.not_mem_nil, or_false] at h ⊢
  grind

section
variable {rule : Rule} {s : Stmt} {found : Match}

theorem valueMatches_of_apply (hrule : rule ∈ valueRules) (h : rule.pattern.apply s = some found) :
    ∃ v, s = .value v ∧ ValueMatches rule v found := by
  simp only [valueRules, List.mem_cons, List.not_mem_nil, or_false] at hrule
  rcases hrule with rfl | rfl | rfl | rfl | rfl | rfl | rfl | rfl | rfl | rfl | rfl
  · obtain ⟨w, rfl, -, rfl⟩ := Pattern.matchFrom_const.1 h
    exact ⟨_, rfl, .const w⟩
  · obtain ⟨r, rfl, -, rfl⟩ := Pattern.matchFrom_read.1 h
    exact ⟨_, rfl, .read r⟩
  · obtain ⟨a, rfl, h⟩ := Pattern.matchFrom_load.1 h
    obtain ⟨l, d, hd, e, rfl⟩ := matchFrom_labelOffset h
    cases e
    exact ⟨_, rfl, .loadLabel l hd⟩
  · obtain ⟨a, rfl, h⟩ := Pattern.matchFrom_load.1 h
    obtain ⟨op, b, d, hop, hd, e, rfl⟩ := matchFrom_registerOffset h
    cases e
    exact ⟨_, rfl, .loadOffset b hop hd⟩
  · obtain ⟨a, rfl, h⟩ := Pattern.matchFrom_load.1 h
    obtain ⟨v, e, rfl⟩ := Pattern.matchFrom_wild.1 h
    cases e
    exact ⟨_, rfl, .loadAny a⟩
  · obtain ⟨l, rfl, rfl⟩ := Pattern.matchFrom_address.1 h
    exact ⟨_, rfl, .address l⟩
  · obtain ⟨f, n, rfl, rfl⟩ := Pattern.matchFrom_call.1 h
    exact ⟨_, rfl, .call f n⟩
  · obtain ⟨op, l, d, m₁, hop, hd, rfl, h₁, rfl⟩ := matchFrom_update h
    obtain ⟨l', e, rfl⟩ := Pattern.matchFrom_wild.1 h₁
    cases e
    exact ⟨_, rfl, .arithConst l hop hd⟩
  · obtain ⟨op, l, r, rfl, hop, rfl⟩ := matchFrom_pair h
    exact ⟨_, rfl, .arithAny l r (List.contains_iff_mem.1 hop)⟩
  · obtain ⟨op, v, rfl, -, h⟩ := Pattern.matchFrom_unary.1 h
    obtain ⟨v', e, rfl⟩ := Pattern.matchFrom_wild.1 h
    cases e
    exact ⟨_, rfl, .unary op v⟩
  · obtain ⟨op, l, r, rfl, hop, rfl⟩ := matchFrom_pair h
    exact ⟨_, rfl, .compare l r (List.contains_iff_mem.1 hop)⟩

theorem writeMatches_of_apply (hrule : rule ∈ writeRules) (h : rule.pattern.apply s = some found) :
    ∃ r v, s = .write r v ∧ WriteMatches r rule v found := by
  simp only [writeRules, List.mem_cons, List.not_mem_nil, or_false] at hrule
  rcases hrule with rfl | rfl | rfl | rfl | rfl | rfl <;> obtain ⟨r, v, rfl, h⟩ := apply_dst h
  · obtain ⟨w, e, -, rfl⟩ := Pattern.matchFrom_const.1 h
    cases e
    exact ⟨_, _, rfl, .const w⟩
  · obtain ⟨op, l, d, m₁, hop, hd, e, h₁, rfl⟩ := matchFrom_update h
    obtain ⟨r', e', hr', rfl⟩ := Pattern.matchFrom_read.1 h₁
    cases e
    cases e'
    obtain rfl : r = r' := by simpa [Test.written] using hr'
    exact ⟨_, _, rfl, .update hop hd⟩
  · obtain ⟨a, e, h⟩ := Pattern.matchFrom_load.1 h
    obtain ⟨l, d, hd, e', rfl⟩ := matchFrom_labelOffset h
    cases e
    cases e'
    exact ⟨_, _, rfl, .loadLabel l hd⟩
  · obtain ⟨a, e, h⟩ := Pattern.matchFrom_load.1 h
    obtain ⟨op, b, d, hop, hd, e', rfl⟩ := matchFrom_registerOffset h
    cases e
    cases e'
    exact ⟨_, _, rfl, .loadOffset b hop hd⟩
  · obtain ⟨a, e, h⟩ := Pattern.matchFrom_load.1 h
    obtain ⟨a', e', rfl⟩ := Pattern.matchFrom_wild.1 h
    cases e
    cases e'
    exact ⟨_, _, rfl, .load a⟩
  · obtain ⟨v', e, rfl⟩ := Pattern.matchFrom_wild.1 h
    cases e
    exact ⟨_, _, rfl, .any v⟩

theorem storeMatches_of_apply (hrule : rule ∈ storeRules) (h : rule.pattern.apply s = some found) :
    ∃ a v, s = .store a v ∧ StoreMatches rule a v found := by
  simp only [storeRules, List.mem_cons, List.not_mem_nil, or_false] at hrule
  rcases hrule with rfl | rfl | rfl | rfl | rfl <;>
    obtain ⟨a, v, rfl, m₁, h₁, h⟩ := Pattern.matchFrom_store.1 h
  · obtain ⟨l, d, hd, e, rfl⟩ := matchFrom_labelOffset h₁
    obtain ⟨v', e', rfl⟩ := Pattern.matchFrom_wild.1 h
    cases e
    cases e'
    exact ⟨_, _, rfl, .label l v hd⟩
  · obtain ⟨op, b, d, hop, hd, e, rfl⟩ := matchFrom_registerOffset h₁
    obtain ⟨w, e', hw, rfl⟩ := Pattern.matchFrom_const.1 h
    cases e
    cases e'
    exact ⟨_, _, rfl, .offsetConst b hop hd hw⟩
  · obtain ⟨op, b, d, hop, hd, e, rfl⟩ := matchFrom_registerOffset h₁
    obtain ⟨r, e', -, rfl⟩ := Pattern.matchFrom_read.1 h
    cases e
    cases e'
    exact ⟨_, _, rfl, .offsetReg b r hop hd⟩
  · obtain ⟨a', e, rfl⟩ := Pattern.matchFrom_wild.1 h₁
    obtain ⟨w, e', hw, rfl⟩ := Pattern.matchFrom_const.1 h
    cases e
    cases e'
    exact ⟨_, _, rfl, .const a hw⟩
  · obtain ⟨a', e, rfl⟩ := Pattern.matchFrom_wild.1 h₁
    obtain ⟨v', e', rfl⟩ := Pattern.matchFrom_wild.1 h
    cases e
    cases e'
    exact ⟨_, _, rfl, .any a v⟩

/-- **A tree rule matches what its case says.** -/
theorem matches_of_apply (hrule : rule ∈ catalogue.trees) (h : rule.pattern.apply s = some found) :
    Matches rule s found := by
  rcases mem_trees hrule with hrule | hrule | hrule | rfl
  · obtain ⟨v, rfl, hvalue⟩ := valueMatches_of_apply hrule h
    exact .value hvalue
  · obtain ⟨r, v, rfl, hwrite⟩ := writeMatches_of_apply hrule h
    exact .write hwrite
  · obtain ⟨a, v, rfl, hstore⟩ := storeMatches_of_apply hrule h
    exact .store hstore
  · obtain ⟨b, rfl, rfl⟩ := Pattern.matchFrom_ret.1 h
    exact .ret b

end

/-- The branch rule matches the condition with the given match. -/
inductive BranchMatches : Rule → Value → Match → Prop
  | compare {op : BinaryOp} (l r : Value) (hop : op ∈ BinaryOp.comparisons) :
    BranchMatches branchCompare (.binary op l r)
      { leaves := [l, r], captures := [(.own 5, .binaryOp op)] }
  | any (v : Value) : BranchMatches branchAny v { leaves := [v] }

theorem branchMatches_of_apply {rule : Rule} {v : Value} {found : Match}
    (hrule : rule ∈ catalogue.branches) (h : rule.pattern.apply (.value v) = some found) :
    BranchMatches rule v found := by
  simp only [catalogue, List.mem_cons, List.not_mem_nil, or_false] at hrule
  rcases hrule with rfl | rfl
  · obtain ⟨op, l, r, e, hop, rfl⟩ := matchFrom_pair h
    cases e
    exact .compare l r (List.contains_iff_mem.1 hop)
  · obtain ⟨v', e, rfl⟩ := Pattern.matchFrom_wild.1 h
    cases e
    exact .any v

end Codegen.Amd64
