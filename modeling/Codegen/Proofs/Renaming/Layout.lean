/-
  Code and layout up to the names of what is drawn.

  A rule gives the same code for the same match, but for the registers that it draws and
  those that hold its open leaves.  So do tiles, blocks and layouts: if a renaming leaves
  alone what a graph mentions, then the streams that are laid out from two supplies are
  renamed to each other (`Layout.renames_layout`).
-/
import Codegen.Proofs.Renaming.Basic
import Codegen.Proofs.Meaning.Compress
import Codegen.Proofs.Selection.Encodable

namespace Codegen

/-! ## Names in trees -/

/-- The registers and labels of the tree are such. -/
def Value.Within (R : Register → Prop) (L : Label → Prop) : Value → Prop
  | .const _ => True
  | .read r => R r
  | .load a => a.Within R L
  | .binary _ l r => l.Within R L ∧ r.Within R L
  | .unary _ v => v.Within R L
  | .address l => L l
  | .call f _ => L f

/-- The registers and labels of the operation are such. -/
def Stmt.Within (R : Register → Prop) (L : Label → Prop) : Stmt → Prop
  | .value v => v.Within R L
  | .write r v => R r ∧ v.Within R L
  | .store a v => a.Within R L ∧ v.Within R L
  | .ret _ => True

/-- The registers and labels of the graph are such. -/
structure Flow.Within (R : Register → Prop) (L : Label → Prop) (g : Flow) : Prop where
  operations : ∀ i body next, g.block i = .straight body next → ∀ op ∈ body, op.Within R L
  conditions : ∀ i cond t f, g.block i = .branch cond t f → cond.Within R L

section
variable {R R' : Register → Prop} {L L' : Label → Prop}

theorem Value.Within.mono {v : Value} (h : v.Within R L) (hR : ∀ r, R r → R' r) (hL : ∀ l, L l → L' l) :
    v.Within R' L' := by
  induction v with
  | const => trivial
  | read r => exact hR r h
  | load a ih => exact ih h
  | binary op l r ihl ihr => exact ⟨ihl h.1, ihr h.2⟩
  | unary op v ih => exact ih h
  | address l => exact hL l h
  | call f n => exact hL f h

theorem Stmt.Within.mono {op : Stmt} (h : op.Within R L) (hR : ∀ r, R r → R' r) (hL : ∀ l, L l → L' l) :
    op.Within R' L' := by
  cases op with
  | value v => exact Value.Within.mono h hR hL
  | write r v => exact ⟨hR r h.1, h.2.mono hR hL⟩
  | store a v => exact ⟨h.1.mono hR hL, h.2.mono hR hL⟩
  | ret => trivial

theorem Flow.Within.mono {g : Flow} (h : g.Within R L) (hR : ∀ r, R r → R' r) (hL : ∀ l, L l → L' l) :
    g.Within R' L' :=
  ⟨fun i body next hi op hop => (h.operations i body next hi op hop).mono hR hL,
    fun i cond t f hi => (h.conditions i cond t f hi).mono hR hL⟩

theorem Flow.Within.compress {g g' : Flow} (h : g.Within R L) (hg : g.compress = .ok g') :
    g'.Within R L :=
  ⟨Flow.operations_compress hg h.operations,
    Flow.branches_compress (Q := fun cond _ _ => cond.Within R L) hg h.conditions⟩

theorem Value.Subtree.within {u v : Value} (h : Subtree u v) (hv : v.Within R L) : u.Within R L := by
  induction h with
  | refl => exact hv
  | load _ ih => exact ih hv
  | left _ ih => exact ih hv.1
  | right _ ih => exact ih hv.2
  | unary _ ih => exact ih hv

theorem Stmt.Within.values {op : Stmt} (h : op.Within R L) : ∀ v ∈ op.values, v.Within R L := by
  cases op with
  | value v => exact List.forall_mem_singleton.2 h
  | write r v => exact List.forall_mem_singleton.2 h.2
  | store a v => exact List.forall_mem_cons.2 ⟨h.1, List.forall_mem_singleton.2 h.2⟩
  | ret => exact List.forall_mem_nil _

theorem Value.Within.reads {v : Value} (h : v.Within R L) : ∀ r ∈ v.reads, R r := by
  induction v with
  | const | address | call => exact List.forall_mem_nil _
  | read r => exact List.forall_mem_singleton.2 h
  | load a ih => exact ih h
  | binary op l r ihl ihr => exact List.forall_mem_append.2 ⟨ihl h.1, ihr h.2⟩
  | unary op v ih => exact ih h

/-- What a pattern leaves open mentions no other names. -/
theorem Stmt.Within.leaves {p : Pattern} {op : Stmt} {found : Match} (h : op.Within R L)
    (hfound : p.apply op = some found) : ∀ v ∈ found.leaves, v.Within R L := by
  intro v hv
  obtain ⟨y, hy, hsub⟩ := (Pattern.leaves_subtree hfound v hv).resolve_left (by simp)
  exact hsub.within (h.values y hy)

end

namespace Renaming

/-- The renaming leaves a register alone. -/
def KeepsRegister (ρ : Renaming) (r : Register) : Prop := ρ.register r = r

/-- The renaming leaves a label alone. -/
def KeepsLabel (ρ : Renaming) (l : Label) : Prop := ρ.label l = l

/-- The code of a tile renamed, with the register of its value. -/
def emission (ρ : Renaming) (out : List Instr × Option Register) : List Instr × Option Register :=
  (out.1.map ρ.instr, out.2.map ρ.register)

/-- The code of leaves renamed, with the registers that hold them. -/
def leaves (ρ : Renaming) (out : List Instr × List Register) : List Instr × List Register :=
  (out.1.map ρ.instr, out.2.map ρ.register)

theorem instr_move (ρ : Renaming) (d r : Register) :
    ρ.instr (.move d r) = .move (ρ.register d) (ρ.register r) := rfl

theorem mem_ofRegister {ρ : Renaming} (h : ρ.Faithful) (r : Register) :
    ρ.mem (.ofRegister r) = .ofRegister (ρ.register r) := by
  simp [mem, Mem.ofRegister, h.none]

theorem mem_label {ρ : Renaming} {l : Label} (h : ρ.KeepsLabel l) (d : Word) :
    ρ.mem ⟨l, none, d⟩ = ⟨l, none, d⟩ := by
  simp [mem, show ρ.label l = l from h]

theorem mem_offset {ρ : Renaming} (h : ρ.Faithful) {b : Register} (hb : ρ.KeepsRegister b) (d : Word) :
    ρ.mem ⟨Label.none, some b, d⟩ = ⟨Label.none, some b, d⟩ := by
  simp [mem, h.none, show ρ.register b = b from hb]

end Renaming

namespace Amd64

open Renaming Fresh

variable {ρ : Renaming} {name : String} {p : Pattern}

/-! ## Rules -/

theorem renames_valueRule {f : Emission → Register → Except Fault (List Instr)} {e e' : Emission}
    (is is' : Register → List Instr) (h : ∀ out, f e out = .ok (is out)) (h' : ∀ out, f e' out = .ok (is' out))
    (his : ∀ out, is' (ρ.register out) = (is out).map ρ.instr) :
    Renames ρ ρ.emission ((valueRule name p f).generate e) ((valueRule name p f).generate e') := by
  refine (Renames.register ρ).bind fun out => ?_
  rw [h, h', his]
  exact .pure ρ ρ.emission (is out, some out)

theorem renames_stmtRule {f : Emission → Except Fault (List Instr)} {e e' : Emission} (is : List Instr)
    (h : f e = .ok is) (h' : f e' = .ok (is.map ρ.instr)) :
    Renames ρ ρ.emission ((stmtRule name p f).generate e) ((stmtRule name p f).generate e') := by
  change Renames ρ ρ.emission (Fresh.ofExcept (f e) >>= _) (Fresh.ofExcept (f e') >>= _)
  rw [h, h']
  exact .pure ρ ρ.emission (is, none)

theorem map_register_physical (ps : List Physical) :
    (ps.map Register.physical).map ρ.register = ps.map Register.physical := by
  simp [Function.comp_def]

section
variable {rule : Rule} {found : Match} {inputs : List Register} {a v : Value}

theorem renames_call {f : Label} {n : Int} (hfound : found.call .call = .ok (f, n)) (hf : ρ.KeepsLabel f) :
    Renames ρ ρ.emission (call.generate { inputs, found })
      (call.generate { inputs := inputs.map ρ.register, found }) := by
  rw [generate_call hfound, generate_call hfound]
  split
  · exact .throw ρ _ _ _
  · split
    · exact .throw ρ _ _ _
    · refine (Renames.register ρ).bind fun out => ?_
      have hpure := Renames.pure ρ ρ.emission (([.call f ((convention.arguments.take n.toNat).map Register.physical)
        (convention.callerSaved.map Register.physical), .move out convention.result], some out) :
          List Instr × Option Register)
      simp only [emission, List.map_cons, List.map_nil, instr, map_register_physical,
        show ρ.label f = f from hf, Option.map_some] at hpure
      exact hpure

theorem ValueMatches.renames (hρ : ρ.Faithful) (h : ValueMatches rule v found)
    (hwithin : v.Within ρ.KeepsRegister ρ.KeepsLabel) (hlen : inputs.length = found.leaves.length) :
    Renames ρ ρ.emission (rule.generate { inputs, found })
      (rule.generate { inputs := inputs.map ρ.register, found }) := by
  cases h with
  | const w => exact renames_valueRule _ _ (fun _ => rfl) (fun _ => rfl) fun _ => rfl
  | read r =>
    have hpure := Renames.pure ρ ρ.emission (([], some r) : List Instr × Option Register)
    rw [show ρ.emission ([], some r) = ([], some r) by simp [emission, show ρ.register r = r from hwithin]] at hpure
    exact hpure
  | loadLabel l hd =>
    refine renames_valueRule _ _ (fun _ => rfl) (fun _ => rfl) fun _ => ?_
    simp [instr, operand, mem_label hwithin.1]
  | loadOffset b hb hd =>
    refine renames_valueRule _ _ (fun _ => rfl) (fun _ => rfl) fun _ => ?_
    simp [instr, operand, mem_offset hρ hwithin.1]
  | loadAny a =>
    obtain ⟨b, rfl⟩ := List.length_eq_one_iff.1 hlen
    refine renames_valueRule _ _ (fun _ => rfl) (fun _ => rfl) fun _ => ?_
    simp [instr, operand, mem_ofRegister hρ]
  | address l =>
    refine renames_valueRule _ _ (fun _ => rfl) (fun _ => rfl) fun _ => ?_
    simp [instr, mem_label hwithin]
  | call f n => exact renames_call rfl hwithin
  | unary op x =>
    obtain ⟨b, rfl⟩ := List.length_eq_one_iff.1 hlen
    refine (Renames.ofExcept ρ (.ok op)).bind fun op => (Renames.register ρ).bind fun out => ?_
    exact .pure ρ ρ.emission ([.move out b, .unary (if op = .neg then "neg" else "not") out], some out)
  | @arithConst op l d hop hd =>
    obtain ⟨b, rfl⟩ := List.length_eq_one_iff.1 hlen
    obtain ⟨name, f, hname, -⟩ := arithmetic_spec (mem_arithmetic hop)
    exact renames_valueRule (fun out => [.move out b, .binary name (.reg out) (.imm d)])
      (fun out => [.move out (ρ.register b), .binary name (.reg out) (.imm d)])
      (fun out => Except.bind_eq_ok.2 ⟨op, rfl, Except.bind_eq_ok.2 ⟨name, hname, rfl⟩⟩)
      (fun out => Except.bind_eq_ok.2 ⟨op, rfl, Except.bind_eq_ok.2 ⟨name, hname, rfl⟩⟩) fun _ => rfl
  | @arithAny op l r hop =>
    obtain ⟨b, c, rfl⟩ := List.length_eq_two.1 hlen
    obtain ⟨name, f, hname, -⟩ := arithmetic_spec hop
    exact renames_valueRule (fun out => [.move out b, .binary name (.reg out) (.reg c)])
      (fun out => [.move out (ρ.register b), .binary name (.reg out) (.reg (ρ.register c))])
      (fun out => Except.bind_eq_ok.2 ⟨op, rfl, Except.bind_eq_ok.2 ⟨name, hname, rfl⟩⟩)
      (fun out => Except.bind_eq_ok.2 ⟨op, rfl, Except.bind_eq_ok.2 ⟨name, hname, rfl⟩⟩) fun _ => rfl
  | @compare op l r hop =>
    obtain ⟨b, c, rfl⟩ := List.length_eq_two.1 hlen
    obtain ⟨cc, test, hcc, -⟩ := condition_spec hop
    exact renames_valueRule (fun out => [.clear out, .binary "cmp" (.reg b) (.reg c), .setcc cc out])
      (fun out => [.clear out, .binary "cmp" (.reg (ρ.register b)) (.reg (ρ.register c)), .setcc cc out])
      (fun out => Except.bind_eq_ok.2 ⟨op, rfl, Except.bind_eq_ok.2 ⟨cc, hcc, rfl⟩⟩)
      (fun out => Except.bind_eq_ok.2 ⟨op, rfl, Except.bind_eq_ok.2 ⟨cc, hcc, rfl⟩⟩) fun _ => rfl

theorem WriteMatches.renames (hρ : ρ.Faithful) {r : Register} (h : WriteMatches r rule v found)
    (hr : ρ.KeepsRegister r) (hwithin : v.Within ρ.KeepsRegister ρ.KeepsLabel)
    (hlen : inputs.length = found.leaves.length) :
    Renames ρ ρ.emission (rule.generate { inputs, found })
      (rule.generate { inputs := inputs.map ρ.register, found }) := by
  have hkeeps : ρ.register r = r := hr
  cases h with
  | const w =>
    refine renames_stmtRule [.mov (.reg r) (.imm w)] rfl ?_
    simp [instr, operand, hkeeps]
    rfl
  | @update op d hop hd =>
    obtain ⟨name, f, hname, -⟩ := arithmetic_spec (mem_arithmetic hop)
    refine renames_stmtRule [.binary name (.reg r) (.imm d)] ?_ ?_
    · exact Except.bind_eq_ok.2 ⟨op, rfl, Except.bind_eq_ok.2 ⟨name, hname, rfl⟩⟩
    · simp [instr, operand, hkeeps]
      exact Except.bind_eq_ok.2 ⟨op, rfl, Except.bind_eq_ok.2 ⟨name, hname, rfl⟩⟩
  | @loadLabel l d hd =>
    refine renames_stmtRule [.mov (.reg r) (.mem ⟨l, none, d⟩)] rfl ?_
    simp [instr, operand, hkeeps, mem_label hwithin.1]
    rfl
  | @loadOffset op b d hb hd =>
    refine renames_stmtRule [.mov (.reg r) (.mem ⟨Label.none, some b, if op = .sub then -d else d⟩)] rfl ?_
    simp [instr, operand, hkeeps, mem_offset hρ hwithin.1]
    rfl
  | load a =>
    obtain ⟨b, rfl⟩ := List.length_eq_one_iff.1 hlen
    refine renames_stmtRule [.mov (.reg r) (.mem (.ofRegister b))] rfl ?_
    simp [instr, operand, hkeeps, mem_ofRegister hρ]
    rfl
  | any v =>
    obtain ⟨b, rfl⟩ := List.length_eq_one_iff.1 hlen
    refine renames_stmtRule [.move r b] rfl ?_
    simp [instr_move, hkeeps]
    rfl

theorem StoreMatches.renames (hρ : ρ.Faithful) (h : StoreMatches rule a v found)
    (ha : a.Within ρ.KeepsRegister ρ.KeepsLabel) (hv : v.Within ρ.KeepsRegister ρ.KeepsLabel)
    (hlen : inputs.length = found.leaves.length) :
    Renames ρ ρ.emission (rule.generate { inputs, found })
      (rule.generate { inputs := inputs.map ρ.register, found }) := by
  cases h with
  | @label l d v hd =>
    obtain ⟨b, rfl⟩ := List.length_eq_one_iff.1 hlen
    refine renames_stmtRule [.mov (.mem ⟨l, none, d⟩) (.reg b)] rfl ?_
    simp [instr, operand, mem_label ha.1]
    rfl
  | @offsetConst op b d w hb hd hw =>
    refine renames_stmtRule [.mov (.mem ⟨Label.none, some b, if op = .sub then -d else d⟩) (.imm w)] rfl ?_
    simp [instr, operand, mem_offset hρ ha.1]
    rfl
  | @offsetReg op b r d hb hd =>
    refine renames_stmtRule [.mov (.mem ⟨Label.none, some b, if op = .sub then -d else d⟩) (.reg r)] rfl ?_
    simp [instr, operand, mem_offset hρ ha.1, show ρ.register r = r from hv]
    rfl
  | @const a w hw =>
    obtain ⟨b, rfl⟩ := List.length_eq_one_iff.1 hlen
    refine renames_stmtRule [.mov (.mem (.ofRegister b)) (.imm w)] rfl ?_
    simp [instr, operand, mem_ofRegister hρ]
    rfl
  | any a v =>
    obtain ⟨b, c, rfl⟩ := List.length_eq_two.1 hlen
    refine renames_stmtRule [.mov (.mem (.ofRegister b)) (.reg c)] rfl ?_
    simp [instr, operand, mem_ofRegister hρ]
    rfl

/-- **A rule gives the same code up to names.** -/
theorem renames_of_matches (hρ : ρ.Faithful) {op : Stmt} (h : Matches rule op found)
    (hop : op.Within ρ.KeepsRegister ρ.KeepsLabel) (hlen : inputs.length = found.leaves.length) :
    Renames ρ ρ.emission (rule.generate { inputs, found })
      (rule.generate { inputs := inputs.map ρ.register, found }) := by
  cases h with
  | value h => exact h.renames hρ hop hlen
  | write h => exact h.renames hρ hop.1 hop.2 hlen
  | store h => exact h.renames hρ hop.1 hop.2 hlen
  | ret hasValue => cases hasValue <;> exact renames_stmtRule _ rfl rfl

end

/-! ## Tiles -/

mutual

theorem renames_emit (hρ : ρ.Faithful) : (t : Tile) → {op : Stmt} → t.Covers catalogue.trees op →
    op.Within ρ.KeepsRegister ρ.KeepsLabel → Renames ρ ρ.emission t.emit t.emit
  | ⟨rule, found, leaves, _⟩, op, ⟨hrule, hfound, hleaves⟩, hop => by
    rw [Tile.emit]
    refine (renames_emitLeaves hρ rule.name leaves hleaves (hop.leaves hfound)).bind_of
      fun ⟨code, inputs⟩ u u₁ hemit => ?_
    refine (renames_of_matches hρ (matches_of_apply hrule hfound) hop
      (hleaves.length_inputs hemit)).bind fun ⟨own, result⟩ => ?_
    have hpure := Renames.pure ρ ρ.emission (code ++ own, result)
    simp only [emission, List.map_append] at hpure
    exact hpure

theorem renames_emitLeaves (hρ : ρ.Faithful) (parent : String) : (ts : List Tile) → {vs : List Value} →
    Tile.CoverAll catalogue.trees ts vs → (∀ v ∈ vs, v.Within ρ.KeepsRegister ρ.KeepsLabel) →
    Renames ρ ρ.leaves (Tile.emitLeaves parent ts) (Tile.emitLeaves parent ts)
  | [], vs, _, _ => .pure ρ ρ.leaves ([], [])
  | t :: ts, [], hcover, _ => hcover.elim
  | t :: ts, v :: vs, hcover, hvs => by
    rw [Tile.emitLeaves]
    refine (renames_emit hρ t hcover.1 (hvs v List.mem_cons_self)).bind fun ⟨code, result⟩ => ?_
    cases result with
    | none => exact .throw ρ _ _ _
    | some r =>
      refine (renames_emitLeaves hρ parent ts hcover.2 fun x hx => hvs x (List.mem_cons_of_mem _ hx)).bind
        fun ⟨rest, rs⟩ => ?_
      have hpure := Renames.pure ρ ρ.leaves (code ++ rest, r :: rs)
      simp only [Renaming.leaves, List.map_append, List.map_cons] at hpure
      exact hpure

end

/-! ## Blocks -/

section
variable (hρ : ρ.Faithful)
include hρ

theorem renames_coverStmts {ops : List Stmt} (hops : ∀ op ∈ ops, op.Within ρ.KeepsRegister ρ.KeepsLabel) :
    Renames ρ (List.map ρ.instr) (catalogue.coverStmts ops) (catalogue.coverStmts ops) := by
  have hone : ∀ op ∈ ops,
      Renames ρ (List.map ρ.instr) (catalogue.coverStmt op) (catalogue.coverStmt op) := by
    intro op hop
    refine (Renames.ofExcept ρ (catalogue.tile op)).bind_of fun t u u₁ ht => ?_
    have hcovers := Catalogue.covers_of_tile? (Catalogue.tile_eq_ok (Fresh.ofExcept_eq_ok.1 ht).1)
    exact (renames_emit hρ t hcovers (hops op hop)).bind fun out => .pure ρ (List.map ρ.instr) out.1
  refine (Renames.mapM hone).bind fun codes => ?_
  rw [← List.map_flatten]
  exact .pure ρ (List.map ρ.instr) codes.flatten

theorem renames_coverSequence {ops : List Stmt}
    (hops : ∀ op ∈ ops, op.Within ρ.KeepsRegister ρ.KeepsLabel) (l : Label) :
    Renames ρ (List.map ρ.instr) (catalogue.coverSequence ops l)
      (catalogue.coverSequence ops (ρ.label l)) := by
  refine (renames_coverStmts hρ hops).bind fun code => ?_
  have hjump : jumpTo (ρ.label l) = (jumpTo l).map ρ.instr := by
    unfold jumpTo
    by_cases hl : l = Label.none
    · rw [if_pos hl, if_pos (hρ.label_eq_none.2 hl)]
      rfl
    · rw [if_neg hl, if_neg fun e => hl (hρ.label_eq_none.1 e)]
      rfl
  have hpure := Renames.pure ρ (List.map ρ.instr) (code ++ jumpTo l)
  rw [List.map_append, ← hjump] at hpure
  exact hpure

theorem renames_coverBranch {cond : Value} (hcond : cond.Within ρ.KeepsRegister ρ.KeepsLabel)
    (onTrue onFalse : Label) :
    Renames ρ (List.map ρ.instr) (catalogue.coverBranch cond onTrue onFalse)
      (catalogue.coverBranch cond (ρ.label onTrue) (ρ.label onFalse)) := by
  unfold Catalogue.coverBranch
  cases ht : catalogue.branchTile? cond with
  | none => exact .throw ρ _ _ _
  | some t =>
    obtain ⟨hrule, hfound, hleaves⟩ := Catalogue.covers_of_branchTile? ht
    have hop : Stmt.Within ρ.KeepsRegister ρ.KeepsLabel (.value cond) := hcond
    refine (renames_emitLeaves hρ t.rule.name t.leaves hleaves (hop.leaves hfound)).bind_of
      fun ⟨code, inputs⟩ u u₁ hemit => ?_
    have hlen := hleaves.length_inputs hemit
    refine Renames.bind (f := ρ.emission) ?_ fun ⟨own, result⟩ => ?_
    · generalize t.found = found at *
      generalize t.rule = rule at *
      cases branchMatches_of_apply hrule hfound with
      | @compare op l r hcmp =>
        obtain ⟨b, c, rfl⟩ := List.length_eq_two.1 hlen
        obtain ⟨cc, test, hcc, -⟩ := condition_spec hcmp
        refine renames_stmtRule [.binary "cmp" (.reg b) (.reg c), .jcc cc onTrue, .jmp onFalse] ?_ ?_
        · exact Except.bind_eq_ok.2 ⟨op, rfl, Except.bind_eq_ok.2 ⟨cc, hcc, rfl⟩⟩
        · exact Except.bind_eq_ok.2 ⟨op, rfl, Except.bind_eq_ok.2 ⟨cc, hcc, rfl⟩⟩
      | any v =>
        obtain ⟨b, rfl⟩ := List.length_eq_one_iff.1 hlen
        exact renames_stmtRule _ rfl rfl
    · have hpure := Renames.pure ρ (List.map ρ.instr) (code ++ own)
      rw [List.map_append] at hpure
      exact hpure

end

end Amd64

/-! ## Layouts -/

namespace Layout

open Renaming Fresh

variable {n : Nat} {ρ : Renaming} {g : Flow} {cover : Coverer}

/-- The labels of blocks renamed. -/
def Labels.rename (ρ : Renaming) (labels : Labels n) : Labels n := labels.map fun e => (e.1, ρ.label e.2)

/-- A block to be laid out, with its label renamed. -/
def Pending.rename (ρ : Renaming) (p : Pending n) : Pending n := ⟨p.label.map ρ.label, p.block⟩

theorem lookup_rename (labels : Labels n) (b : Option (Fin n)) :
    (labels.rename ρ).lookup b = (labels.lookup b).map ρ.label := by
  induction labels with
  | nil => rfl
  | cons e labels ih =>
    obtain ⟨b', l⟩ := e
    change List.lookup b ((b', ρ.label l) :: Labels.rename ρ labels) = _
    rw [lookup_cons, lookup_cons]
    split
    · rfl
    · exact ih

theorem renames_label (labels : Labels n) (b : Option (Fin n)) :
    Renames ρ (fun out => (ρ.label out.1, out.2.rename ρ)) (label labels b) (label (labels.rename ρ) b) := by
  unfold label
  rw [lookup_rename]
  cases labels.lookup b with
  | some l => exact .pure ρ (fun out : Label × Labels n => (ρ.label out.1, out.2.rename ρ)) (l, labels)
  | none =>
    refine (Renames.label ρ).bind fun l => ?_
    exact .pure ρ (fun out : Label × Labels n => (ρ.label out.1, out.2.rename ρ)) (l, (b, l) :: labels)

/-- Covering the blocks of a graph gives the same code up to names. -/
structure Coverable (ρ : Renaming) (g : Flow) (cover : Coverer) : Prop where
  sequence : ∀ {i body next}, g.block i = .straight body next → ∀ l,
    Renames ρ (List.map ρ.instr) (cover.sequence i body l) (cover.sequence i body (ρ.label l))
  branch : ∀ {i cond t f}, g.block i = .branch cond t f → ∀ lt lf,
    Renames ρ (List.map ρ.instr) (cover.branch i cond lt lf) (cover.branch i cond (ρ.label lt) (ρ.label lf))

theorem coverable_catalogue (hρ : ρ.Faithful) (hg : g.Within ρ.KeepsRegister ρ.KeepsLabel) :
    Coverable ρ g Amd64.catalogue.coverer where
  sequence hi l := Amd64.renames_coverSequence hρ (hg.operations _ _ _ hi) l
  branch hi lt lf := Amd64.renames_coverBranch hρ (hg.conditions _ _ _ _ hi) lt lf

/-- What a walk results in, renamed. -/
def walked (ρ : Renaming) (out : Stream × Labels n) : Stream × Labels n :=
  (ρ.stream out.1, out.2.rename ρ)

/-- One block and what comes after it. -/
theorem renames_piece (place : Option Label) {x x' : Fresh (List Instr)}
    {y y' : Fresh (Stream × Labels n)} (hx : Renames ρ (List.map ρ.instr) x x')
    (hy : Renames ρ (walked ρ) y y') :
    Renames ρ (walked ρ)
      (do
        let code ← x
        let (items, labels) ← y
        return (place.toList.map Item.label ++ code.map Item.instr ++ items, labels))
      (do
        let code ← x'
        let (items, labels) ← y'
        return ((place.map ρ.label).toList.map Item.label ++ code.map Item.instr ++ items, labels)) := by
  refine hx.bind fun code => hy.bind fun ⟨items, labels⟩ => ?_
  have hpure := Renames.pure ρ (walked ρ)
    (place.toList.map Item.label ++ code.map Item.instr ++ items, labels)
  have hfront : ρ.stream (place.toList.map Item.label) = (place.map ρ.label).toList.map Item.label := by
    cases place <;> rfl
  rw [walked, stream_append, stream_append, stream_instr, hfront] at hpure
  exact hpure

/-- **A walk gives the same stream up to names.**  Along a walk the blocks that are done are
    the same, and the labels of blocks are renamed. -/
theorem renames_walk (hρ : ρ.Faithful) (hcover : Coverable ρ g cover) (pending : List (Pending g.size))
    (done : List (Fin g.size)) (labels : Labels g.size) :
    Renames ρ (walked ρ) (walk g cover pending done labels)
      (walk g cover (pending.map (Pending.rename ρ)) done (labels.rename ρ)) := by
  induction pending, done, labels using walk.induct with
  | case1 done labels =>
    rw [List.map_nil, walk, walk]
    exact .pure ρ (walked ρ) ([], labels)
  | case2 done labels label tail =>
    rw [List.map_cons, Pending.rename, walk, walk]
    exact .throw ρ _ _ _
  | case3 done labels place i rest hi ih =>
    rw [List.map_cons, Pending.rename, walk, walk, dif_pos hi, dif_pos hi]
    exact ih
  | case4 done labels place i rest hi body hblock ih =>
    rw [List.map_cons, Pending.rename, walk, walk, dif_neg hi, dif_neg hi]
    simp only [hblock]
    have hsequence := hcover.sequence hblock Label.none
    rw [hρ.none] at hsequence
    exact renames_piece place hsequence ih
  | case5 done labels place i rest hi body j hblock ih =>
    rw [List.map_cons, Pending.rename, walk, walk, dif_neg hi, dif_neg hi]
    simp only [hblock]
    refine (renames_label labels (some j)).bind ?_
    rintro ⟨l, labels₁⟩
    exact renames_piece place (hcover.sequence hblock l) (ih l labels₁)
  | case6 done labels place i rest hi cond t f hblock ih =>
    rw [List.map_cons, Pending.rename, walk, walk, dif_neg hi, dif_neg hi]
    simp only [hblock]
    refine (renames_label labels t).bind ?_
    rintro ⟨lt, labels₁⟩
    refine (renames_label labels₁ f).bind ?_
    rintro ⟨lf, labels₂⟩
    exact renames_piece place (hcover.branch hblock lt lf) (ih lt lf labels₂)

/-- **A layout is the same up to names**, if the renaming leaves alone what the graph and the
    entry label mention. -/
theorem renames_layout (hρ : ρ.Faithful) (hcover : Coverable ρ g cover) {entry : Label}
    (hentry : ρ.KeepsLabel entry) :
    Renames ρ ρ.stream (g.layout cover entry) (g.layout cover entry) := by
  have hentry : ρ.label entry = entry := hentry
  unfold Flow.layout
  have hstart : Labels.rename ρ (if entry = Label.none then [] else [(g.root, entry)]) =
      if entry = Label.none then [] else [(g.root, entry)] := by
    split
    · rfl
    · simp [Labels.rename, hentry]
  have hwalk := renames_walk hρ hcover [⟨none, g.root⟩] []
    (if entry = Label.none then [] else [(g.root, entry)])
  rw [hstart] at hwalk
  refine hwalk.bind fun ⟨items, labels⟩ => ?_
  simp only [walked, lookup_rename]
  cases labels.lookup g.root with
  | some l => exact .pure ρ ρ.stream (.label l :: items)
  | none => exact .pure ρ ρ.stream items

end Layout

end Codegen
