/-
  Sample bodies return what they are said to return.

  The body of `Sample.expression` and its value are made side by side.  Where the
  sequence is never negative, both are made (`exists_fold`, `exists_foldValues`), and the
  interpreter follows the value operator by operator (`execAll_foldValues`).  The body
  only writes registers, each of them before it is read (`Initialized`).
-/
import Codegen.Proofs.Meaning.Compress
import Codegen.Proofs.Selection.Reflects
import Codegen.Sample

namespace Codegen.Sample

variable {w : World} {σ : State} {s : Sequence} {ops : List Stmt} {acc : Register} {value : Word}

/-! ## Sequences -/

theorem Sequence.pseudoRandom_nonneg (seed : UInt32) (k : Nat) : 0 ≤ pseudoRandom seed k := by
  have hlt : (scrambled seed (k + 1) >>> 1).toNat < 2 ^ 63 := by
    have := (scrambled seed (k + 1) >>> 1).toNat_lt
    omega
  rw [Int64.le_iff_toInt_le, pseudoRandom, Int64.toInt_ofNat_of_lt hlt]
  exact Int.natCast_nonneg _

/-- A word that is not negative chooses an operator, which the interpreter knows. -/
theorem exists_fold {x : Word} (hx : 0 ≤ x) :
    ∃ op f, fold x = .ok (op, f) ∧ ∀ l r, BinaryOp.apply? op l r = some (f l r) := by
  have hfolds : ∀ c ∈ folds, ∀ l r, BinaryOp.apply? c.1 l r = some (c.2 l r) := by
    simp [folds, BinaryOp.apply?]
  have hk : (x % 6).toInt = x.toInt % 6 := by
    rw [Int64.le_iff_toInt_le] at hx
    rw [Int64.toInt_mod]
    exact Int.tmod_eq_emod_of_nonneg hx
  have hlt : (x % 6).toInt.toNat < folds.length := by
    rw [hk]
    simp only [folds, List.length_cons, List.length_nil]
    omega
  refine ⟨_, _, ?_, hfolds _ (List.getElem_mem hlt)⟩
  have hneg : ¬x % 6 < 0 := by
    rw [Int64.lt_iff_toInt_lt, hk]
    simp only [Int64.toInt_zero]
    omega
  simp only [fold, if_neg hneg, List.getElem?_eq_getElem hlt]

/-! ## Operations -/

/-- The operation that writes a tree to a register. -/
def assign (x : Register × Value) : Stmt := .write x.1 x.2

/-- Every tree reads only registers that were written before it. -/
def Initialized : (written : List Register) → List (Register × Value) → Prop
  | _, [] => True
  | written, x :: xs => x.2.reads ⊆ written ∧ Initialized (x.1 :: written) xs

theorem initialized_append {written : List Register} {xs ys : List (Register × Value)} :
    Initialized written (xs ++ ys) ↔
      Initialized written xs ∧ Initialized ((xs.map Prod.fst).reverse ++ written) ys := by
  induction xs generalizing written with
  | nil => simp [Initialized]
  | cons x xs ih => simp [Initialized, ih, and_assoc]

/-- Trees that read a set of registers may come in any order behind them. -/
theorem initialized_of_forall {written : List Register} {xs : List (Register × Value)}
    (h : ∀ x ∈ xs, x.2.reads ⊆ written) : Initialized written xs := by
  induction xs generalizing written with
  | nil => trivial
  | cons x xs ih =>
    exact ⟨h x List.mem_cons_self, ih fun y hy =>
      List.Subset.trans (h y (List.mem_cons_of_mem _ hy)) (List.subset_cons_self _ _)⟩

theorem execAll_write {r : Register} {v : Value} {x : Word} (h : w.eval v σ = some (x, σ)) :
    w.execAll (.write r v :: ops) σ = w.execAll ops (σ.write r x) := by
  rw [World.execAll, World.exec_write.2 ⟨x, σ, h, rfl⟩]
  rfl

/-- Values are defined one after the other. -/
theorem execAll_define (values : List (Register × Word)) (hdistinct : (values.map Prod.fst).Nodup)
    (ops : List Stmt) (σ : State) :
    ∃ σ₁, w.execAll (values.map (fun x => .write x.1 (.const x.2)) ++ ops) σ = w.execAll ops σ₁ ∧
      σ₁.memory = σ.memory ∧ (∀ x ∈ values, σ₁.registers x.1 = some x.2) ∧
      ∀ r ∉ values.map Prod.fst, σ₁.registers r = σ.registers r := by
  induction values generalizing σ with
  | nil => exact ⟨σ, rfl, rfl, nofun, fun _ _ => rfl⟩
  | cons x values ih =>
    obtain ⟨hnot, hdistinct⟩ := List.nodup_cons.1 hdistinct
    obtain ⟨σ₁, hrun, hmemory, hvalues, hothers⟩ := ih hdistinct (σ.write x.1 x.2)
    refine ⟨σ₁, ?_, hmemory, ?_, fun r hr => ?_⟩
    · rw [List.map_cons, List.cons_append, execAll_write (World.eval_const.2 ⟨rfl, rfl⟩), hrun]
    · intro y hy
      rcases List.mem_cons.1 hy with rfl | hy
      · rw [hothers _ hnot]; simp [State.write]
      · exact hvalues y hy
    · obtain ⟨hne, hr⟩ : r ≠ x.1 ∧ r ∉ values.map Prod.fst := by simpa using hr
      rw [hothers r hr]; simp [State.write, hne]

/-- The operations of a fold write the accumulator, and they read it and the values. -/
theorem exists_foldValues (hs : ∀ k, 0 ≤ s k) (acc : Register) (values : List (Register × Word))
    (position : Nat) (value : Word) :
    ∃ xs result, foldValues s acc values position value = .ok (List.map assign xs, result) ∧
      ∀ x ∈ xs, x.1 = acc ∧ x.2.reads ⊆ acc :: values.map Prod.fst := by
  induction values generalizing position value with
  | nil => exact ⟨[], value, rfl, nofun⟩
  | cons c values ih =>
    obtain ⟨op, f, hfold, -⟩ := exists_fold (hs position)
    obtain ⟨xs, result, hvalues, hxs⟩ := ih (position + 1) (f value c.2)
    refine ⟨(acc, .binary op (.read acc) (.read c.1)) :: xs, result, ?_, ?_⟩
    · refine Except.bind_eq_ok.2 ⟨_, hfold, Except.bind_eq_ok.2 ⟨_, hvalues, rfl⟩⟩
    · intro x hx
      rcases List.mem_cons.1 hx with rfl | hx
      · simp [Value.reads]
      · exact ⟨(hxs x hx).1, List.Subset.trans (hxs x hx).2 (by simp)⟩

/-- The interpreter follows a fold operator by operator. -/
theorem execAll_foldValues (hs : ∀ k, 0 ≤ s k) {values : List (Register × Word)} {position : Nat}
    {result : Word} (h : foldValues s acc values position value = .ok (ops, result))
    (hvalues : ∀ x ∈ values, σ.registers x.1 = some x.2) (hapart : ∀ x ∈ values, x.1 ≠ acc)
    (hacc : σ.registers acc = some value) (rest : List Stmt) :
    ∃ σ₁, w.execAll (ops ++ rest) σ = w.execAll rest σ₁ ∧ σ₁.memory = σ.memory ∧
      σ₁.registers acc = some result := by
  induction values generalizing σ position value ops with
  | nil =>
    cases h
    exact ⟨σ, rfl, rfl, hacc⟩
  | cons c values ih =>
    obtain ⟨op, f, hfold, happly⟩ := exists_fold (hs position)
    obtain ⟨_, hfold', h⟩ := Except.bind_eq_ok.1 h
    obtain ⟨⟨ops', result'⟩, hrest, h⟩ := Except.bind_eq_ok.1 h
    rw [hfold] at hfold'
    cases hfold'
    cases h
    have heval : w.eval (.binary op (.read acc) (.read c.1)) σ = some (f value c.2, σ) :=
      World.eval_binary.2 ⟨value, σ, c.2, World.eval_read.2 ⟨hacc, rfl⟩,
        World.eval_read.2 ⟨hvalues c List.mem_cons_self, rfl⟩, happly _ _⟩
    rw [List.cons_append, execAll_write heval]
    obtain ⟨σ₁, hrun, hmemory, hresult⟩ := ih (σ := σ.write acc (f value c.2)) hrest
      (fun x hx => by simp [State.write, hapart x (List.mem_cons_of_mem _ hx),
        hvalues x (List.mem_cons_of_mem _ hx)])
      (fun x hx => hapart x (List.mem_cons_of_mem _ hx)) (by simp [State.write])
    exact ⟨σ₁, hrun, hmemory, hresult⟩

/-! ## Bodies -/

/-- The values that a body defines, the first of them in the register numbered `first`. -/
def drawn (s : Sequence) (first count : Nat) : List (Register × Word) :=
  (List.range count).map fun k => (.virtual (first + k), s k % 100)

theorem drawn_succ (s : Sequence) (first count : Nat) :
    drawn s first (count + 1) = (.virtual first, s 0 % 100) ::
      drawn (fun k => s (k + 1)) (first + 1) count := by
  simp only [drawn, List.range_succ_eq_map, List.map_cons, List.map_map, Nat.add_zero, List.cons.injEq,
    true_and]
  refine List.map_congr_left fun k _ => ?_
  simp [Nat.add_assoc, Nat.add_comm 1]

theorem fst_drawn (s : Sequence) (first count : Nat) :
    (drawn s first count).map Prod.fst = (List.range count).map fun k => .virtual (first + k) := by
  simp [drawn]

theorem nodup_drawn (s : Sequence) (first count : Nat) : ((drawn s first count).map Prod.fst).Nodup := by
  rw [fst_drawn]
  exact List.nodup_range.map fun i j h => by simpa using h

/-- The registers of the values are drawn one after the other. -/
theorem mapM_register (s : Sequence) (count : Nat) (u : Supply) :
    ((List.range count).mapM fun k => do return (← Fresh.register, s k % 100) : Fresh _) u =
      .ok (drawn s (u.registers + 1) count) { u with registers := u.registers + count } := by
  induction count generalizing s u with
  | zero => rfl
  | succ count ih =>
    rw [List.range_succ_eq_map, List.mapM_cons, drawn_succ]
    refine EStateM.bind_eq_ok.2 ⟨_, { u with registers := u.registers + 1 }, rfl, ?_⟩
    refine EStateM.bind_eq_ok.2 ⟨drawn (fun k => s (k + 1)) (u.registers + 1 + 1) count,
      { u with registers := u.registers + 1 + count }, ?_, ?_⟩
    · rw [List.mapM_map]
      exact ih (fun k => s (k + 1)) { u with registers := u.registers + 1 }
    · simp [EStateM.pure_eq_ok, Nat.add_assoc, Nat.add_comm 1]

/-- The registers that a body writes, with the trees: the values, the first of which
    starts the accumulator, the operators, and the result. -/
def writes (values : List (Register × Word)) (start acc ret : Register) (xs : List (Register × Value)) :
    List (Register × Value) :=
  values.map (fun x => (x.1, Value.const x.2)) ++ [(acc, Value.read start)] ++ xs ++ [(ret, Value.read acc)]

theorem map_assign_writes (values : List (Register × Word)) (start acc ret : Register)
    (xs : List (Register × Value)) (rest : List Stmt) :
    (writes values start acc ret xs).map assign ++ rest =
      values.map (fun x => .write x.1 (.const x.2)) ++
        (.write acc (.read start) :: (xs.map assign ++ (.write ret (.read acc) :: rest))) := by
  simp [writes, assign]

/-- How a body and its value are made. -/
theorem expression_eq_ok {count : Nat} {ret : Register} {u : Supply} {xs : List (Register × Value)} {result : Word}
    (h : foldValues s (.virtual (u.registers + count + 2)) (drawn (fun k => s (k + 1)) (u.registers + 2) count)
      (count + 1) (s 0 % 100) = .ok (xs.map assign, result)) :
    expression s (count + 1 : Nat) ret u =
      .ok (body ((writes (drawn s (u.registers + 1) (count + 1)) (.virtual (u.registers + 1))
        (.virtual (u.registers + count + 2)) ret xs).map assign ++ [.ret true]), result)
        { u with registers := u.registers + count + 2 } := by
  have hvalues := mapM_register s (count + 1) u
  have hlength : (drawn s (u.registers + 1) (count + 1)).length = count + 1 := by simp [drawn]
  rw [map_assign_writes, drawn_succ]
  rw [drawn_succ] at hvalues hlength
  refine EStateM.bind_eq_ok.2 ⟨_, _, hvalues, EStateM.bind_eq_ok.2 ⟨.virtual (u.registers + count + 2),
    { u with registers := u.registers + count + 2 }, rfl, ?_⟩⟩
  simp only [hlength, h, List.append_assoc, List.singleton_append]
  rfl

/-- A register with a smaller or a greater number is not among those of the values. -/
theorem notMem_drawn {first count id : Nat} (h : id < first ∨ first + count ≤ id) :
    Register.virtual id ∉ (drawn s first count).map Prod.fst := by
  rw [fst_drawn]
  simp only [List.mem_map, List.mem_range, Register.virtual.injEq, not_exists, not_and]
  omega

/-- The interpreter runs a body to its value. -/
theorem execAll_writes (hs : ∀ k, 0 ≤ s k) {values : List (Register × Word)} {start : Register}
    {position : Nat} {xs : List (Register × Value)} {result : Word}
    (h : foldValues s acc values position value = .ok (xs.map assign, result))
    (hdistinct : (((start, value) :: values).map Prod.fst).Nodup)
    (hacc : acc ∉ ((start, value) :: values).map Prod.fst) (ret : Register) (w : World) (σ : State) :
    ∃ σ', w.execAll ((writes ((start, value) :: values) start acc ret xs).map assign ++ [.ret true]) σ =
        some (.returns true σ') ∧ σ'.registers ret = some result ∧ σ'.memory = σ.memory := by
  rw [map_assign_writes]
  have hapart : ∀ x ∈ values, x.1 ≠ acc := fun x hx e =>
    hacc (e ▸ List.mem_map_of_mem (List.mem_cons_of_mem _ hx))
  obtain ⟨σ₁, hrun₁, hmemory₁, hvalues, -⟩ := execAll_define (w := w) _ hdistinct
    (Stmt.write acc (.read start) :: (xs.map assign ++ [.write ret (.read acc), .ret true])) σ
  obtain ⟨σ₂, hrun₂, hmemory₂, hresult⟩ := execAll_foldValues (w := w) (σ := σ₁.write acc value) hs h
    (fun x hx => by simp [State.write, hapart x hx, hvalues x (List.mem_cons_of_mem _ hx)]) hapart
    (by simp [State.write]) [.write ret (.read acc), .ret true]
  refine ⟨σ₂.write ret result, ?_, by simp [State.write], hmemory₂.trans hmemory₁⟩
  rw [hrun₁, execAll_write (World.eval_read.2 ⟨hvalues _ List.mem_cons_self, rfl⟩), hrun₂,
    execAll_write (World.eval_read.2 ⟨hresult, rfl⟩)]
  rfl

/-- Every register that a body reads was written before. -/
theorem initialized_writes {values : List (Register × Word)} {start ret : Register}
    {xs : List (Register × Value)} (hstart : start ∈ values.map Prod.fst)
    (hxs : ∀ x ∈ xs, x.2.reads ⊆ acc :: values.map Prod.fst) :
    Initialized [] (writes values start acc ret xs) := by
  rw [writes, initialized_append, initialized_append, initialized_append]
  refine ⟨⟨⟨initialized_of_forall fun x hx => ?_, ?_⟩, initialized_of_forall fun x hx => ?_⟩, ?_⟩
  · obtain ⟨c, -, rfl⟩ := List.mem_map.1 hx
    exact List.nil_subset _
  · simpa [Initialized, Value.reads] using hstart
  · refine List.Subset.trans (hxs x hx) ?_
    simp [Function.comp_def]
  · simp [Initialized, Value.reads]

/-- A register that only a value is written to is written once. -/
theorem count_writes {values : List (Register × Word)} {start ret r : Register} {xs : List (Register × Value)}
    (hdistinct : (values.map Prod.fst).Nodup) (hr : r ∈ values.map Prod.fst) (hacc : r ≠ acc) (hret : r ≠ ret)
    (hxs : ∀ x ∈ xs, x.1 = acc) : ((writes values start acc ret xs).map Prod.fst).count r = 1 := by
  have hxs' : r ∉ xs.map Prod.fst := fun hm => by
    obtain ⟨x, hx, rfl⟩ := List.mem_map.1 hm
    exact hacc (hxs x hx)
  simp [writes, Function.comp_def, List.count_eq_one_of_mem hdistinct hr, List.count_eq_zero.2 hxs',
    hacc.symm, hret.symm]

/-- **Sample bodies return what they are said to return.**  For a sequence that is never
    negative, such as a pseudo-random one, the body writes the values to fresh registers,
    each of them once, and then only the accumulator and the result, whose register was
    there before.  Every register is written before it is read, and from any state the
    body leaves memory alone and returns its value. -/
theorem expression_returns (count : Int) (hcount : 1 ≤ count) (ret : Register) (u : Supply) :
    (∀ seed k, 0 ≤ Sequence.pseudoRandom seed k) ∧
      ∀ s : Sequence, (∀ k, 0 ≤ s k) → ∃ g xs value u', expression s count ret u = .ok (g, value) u' ∧
        g = body (List.map assign xs ++ [.ret true]) ∧
        (∀ k < count.toNat, xs[k]? = some (.virtual (u.registers + 1 + k), .const (s k % 100))) ∧
        (ret.Known u.registers → ∀ k < count.toNat,
          (xs.map Prod.fst).count (.virtual (u.registers + 1 + k)) = 1) ∧
        Initialized [] xs ∧
        ∀ (w : World) (σ : State) (fuel : Nat), 0 < fuel →
          ∃ σ', w.run g fuel g.root σ = some (true, σ') ∧ σ'.registers ret = some value ∧
            σ'.memory = σ.memory := by
  refine ⟨Sequence.pseudoRandom_nonneg, fun s hs => ?_⟩
  obtain ⟨n, rfl⟩ : ∃ n : Nat, count = (n + 1 : Nat) := ⟨(count - 1).toNat, by omega⟩
  obtain ⟨xs, result, hfold, hxs⟩ := exists_foldValues hs (.virtual (u.registers + n + 2))
    (drawn (fun k => s (k + 1)) (u.registers + 2) n) (n + 1) (s 0 % 100)
  have hdistinct := nodup_drawn s (u.registers + 1) (n + 1)
  have hacc : Register.virtual (u.registers + n + 2) ∉ (drawn s (u.registers + 1) (n + 1)).map Prod.fst :=
    notMem_drawn (by omega)
  have hmem : ∀ k < n + 1,
      Register.virtual (u.registers + 1 + k) ∈ (drawn s (u.registers + 1) (n + 1)).map Prod.fst := fun k hk => by
    rw [fst_drawn]
    exact List.mem_map_of_mem (List.mem_range.2 hk)
  refine ⟨_, _, result, _, expression_eq_ok hfold, rfl, fun k hk => ?_, fun hret k hk => ?_, ?_,
    fun w σ fuel hfuel => ?_⟩
  · have hk : k < n + 1 := hk
    simp [writes, drawn, List.getElem?_append, hk]
  · refine count_writes hdistinct (hmem k hk) ?_ ?_ fun x hx => (hxs x hx).1
    · rintro e
      exact hacc (e ▸ hmem k hk)
    · rintro rfl
      have := hret _ rfl
      omega
  · refine initialized_writes (hmem 0 (by omega)) fun x hx => List.Subset.trans (hxs x hx).2 ?_
    rw [drawn_succ]
    simp
  · obtain ⟨fuel, rfl⟩ : ∃ f, fuel = f + 1 := ⟨fuel - 1, by omega⟩
    rw [drawn_succ] at hdistinct hacc ⊢
    obtain ⟨σ', hrun, hret, hmemory⟩ := execAll_writes hs hfold hdistinct hacc ret w σ
    exact ⟨σ', (World.run_straight rfl).2 (Or.inl hrun), hret, hmemory⟩

/-- Three pseudo-random values and the operators between them. -/
theorem expression_returns_three :
    ∃ g value u', expression (Sequence.pseudoRandom 42) 3 (.physical .rax) {} = .ok (g, value) u' ∧
      ∃ σ', World.run ⟨[], [], []⟩ g 1 g.root ⟨fun _ => none, fun _ => 0⟩ = some (true, σ') ∧
        σ'.registers (.physical .rax) = some value := by
  obtain ⟨hrandom, hreturns⟩ := expression_returns 3 (by decide) (.physical .rax) {}
  obtain ⟨g, -, value, u', hmade, -, -, -, -, hrun⟩ := hreturns (Sequence.pseudoRandom 42) (hrandom 42)
  obtain ⟨σ', hrun, hvalue, -⟩ := hrun ⟨[], [], []⟩ ⟨fun _ => none, fun _ => 0⟩ 1 Nat.one_pos
  exact ⟨g, value, u', hmade, σ', hrun, hvalue⟩

end Codegen.Sample
