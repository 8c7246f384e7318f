/-
  Runs as sequences of steps.

  * An instruction keeps every part of the machine that is `Apart` from what it changes:
    registers, memory, control.
  * `Control` is what an instruction does to control: it goes on, jumps to one of
    its labels, or returns.
  * A run succeeds if and only if a return is reached in as many steps as allowed
    (`run_eq_ok`), once the labels of the stream have got their positions
    (`Placed`).
-/
import Codegen.Proofs.Machine.Agree

namespace Codegen

namespace Machine

variable {m n : Machine} {r d : Register}

/-- What is kept of a register: its word, if it has one, and whether a call clobbered
    it. -/
def entry (m : Machine) (r : Register) : Option Word × Bool :=
  (m.registers.get? r, decide (r ∈ m.poisoned))

theorem read_eq_of_entry (h : n.entry r = m.entry r) : n.read r = m.read r := by
  obtain ⟨hget, hpoisoned⟩ := Prod.mk.inj h
  simp only [read, hget, decide_eq_decide.1 hpoisoned]

theorem entry_write (m : Machine) (w : Word) (h : r ≠ d) : (m.write d w).entry r = m.entry r := by
  simp [entry, write, h]

theorem entry_poison (m : Machine) {rs : List Register} (h : r ∉ rs) :
    (m.poison rs).entry r = m.entry r := by
  simp [entry, poison, h]

end Machine

namespace Exec

variable {α β : Type} {m n : Machine} {i : Instr}

/-! ## Parts that are kept -/

/-- The computation keeps a part of the machine. -/
def Keeps {κ : Type} (part : Machine → κ) (x : Exec α) : Prop :=
  ∀ ⦃m : Machine⦄ ⦃a : α⦄ ⦃n : Machine⦄, x m = .ok a n → part n = part m

section
variable {κ : Type} {part : Machine → κ}

theorem Keeps.bind {x : Exec α} {k : α → Exec β} (h : Keeps part x) (hk : ∀ a, Keeps part (k a)) :
    Keeps part (x >>= k) := by
  intro m b n e
  obtain ⟨a, m₁, e₁, e₂⟩ := EStateM.bind_eq_ok.1 e
  exact (hk a e₂).trans (h e₁)

theorem keeps_pure (a : α) : Keeps part (pure a) := by
  intro m b n e
  obtain ⟨-, rfl⟩ := EStateM.pure_eq_ok.1 e
  rfl

theorem keeps_fail (t : Trouble) : Keeps part (fail t : Exec α) := fun _ _ _ e => absurd e fail_ne_ok

theorem keeps_modify {g : Machine → Machine} (h : ∀ m, part (g m) = part m) : Keeps part (modify g) := by
  intro m a n e
  cases e
  exact h m

theorem keeps_read (r : Register) : Keeps part (read r) := by
  intro m w n e
  obtain ⟨rfl, -⟩ := read_eq_ok.1 e
  rfl

theorem keeps_holds (cond : String) : Keeps part (holds cond) := by
  intro m b n e
  obtain ⟨rfl, -⟩ := holds_eq_ok.1 e
  rfl

theorem keeps_mapM_read (rs : List Register) : Keeps part (rs.mapM read) := by
  induction rs with
  | nil => exact keeps_pure _
  | cons r rs ih =>
    rw [List.mapM_cons]
    exact (keeps_read r).bind fun _ => ih.bind fun _ => keeps_pure _

/-- The addresses of labels are no part of what is kept, since any operand may give out
    new ones. -/
theorem keeps_address (hglobals : ∀ m G, part { m with globals := G } = part m) (o : Mem) :
    Keeps part (address o) := by
  refine Keeps.bind ?_ fun _ => Keeps.bind ?_ fun _ => keeps_pure _
  · unfold anchor
    split
    · exact keeps_pure _
    · intro m a n e
      obtain ⟨G, -, hG⟩ := m.globalAddress_eq o.label
      have e : (m.globalAddress o.label).2 = n := by cases e; rfl
      rw [← e, hG]
      exact hglobals m G
  · cases o.base with
    | none => exact keeps_pure _
    | some r => exact keeps_read r

theorem keeps_load (hglobals : ∀ m G, part { m with globals := G } = part m) (o : Operand) :
    Keeps part (load o) := by
  cases o with
  | imm w => exact keeps_pure _
  | reg r => exact keeps_read r
  | mem q =>
    refine (keeps_address hglobals q).bind fun a => ?_
    intro m w n e
    cases e
    rfl

/-- What an instruction changes is apart from a part of the machine. -/
structure Apart (part : Machine → κ) (i : Instr) : Prop where
  globals : ∀ m G, part { m with globals := G } = part m
  compared : ∀ m c, part { m with compared := c } = part m
  written : ∀ d ∈ changes i, ∀ m w, part (m.write d w) = part m
  poisoned : ∀ rs, rs ⊆ changes i → ∀ m, part (m.poison rs) = part m
  memory : i.memories ≠ [] → ∀ m M, part { m with memory := M } = part m
  position : i.target? ≠ none → ∀ m j, part { m with position := j } = part m
  returned : (∃ results, i = .ret results) → ∀ m, part { m with returned := true } = part m

namespace Apart

theorem store (h : Apart part i) {o : Operand} (ho : o.defined ⊆ changes i) (hmem : o.memories ⊆ i.memories)
    (w : Word) : Keeps part (store w o) := by
  cases o with
  | imm v => exact keeps_fail _
  | reg r =>
    refine keeps_modify fun m => h.written r (ho ?_) m w
    simp [Operand.defined, Operand.register?]
  | mem q =>
    refine (keeps_address h.globals q).bind fun a => keeps_modify fun m => ?_
    refine h.memory ?_ m _
    rintro e
    rw [e] at hmem
    exact absurd (hmem List.mem_cons_self) List.not_mem_nil

theorem jump (h : Apart part i) {l : Label} (hl : i.target? = some l) : Keeps part (jump l) := by
  intro m a n e
  obtain ⟨j, -, rfl⟩ := jump_eq_ok.1 e
  exact h.position (by simp [hl]) m j

theorem combine {op : String} {dst src : Operand} (h : Apart part (.binary op dst src)) :
    Keeps part (combine op dst src) := by
  refine (keeps_load h.globals dst).bind fun a => (keeps_load h.globals src).bind fun b => ?_
  split
  · exact keeps_modify fun m => h.compared m (a, b)
  · next hop =>
    split
    · exact keeps_fail _
    · refine h.store ?_ ?_ _
      · simp [changes, Instr.defines, hop]
      · intro q hq
        simp [Instr.memories, hq]

theorem call {l : Label} {arguments clobbers : List Register} (h : Apart part (.call l arguments clobbers)) :
    Keeps part (call l arguments clobbers) := by
  intro m b n e
  obtain ⟨hook, -, e⟩ := call_eq_ok.1 e
  refine ((keeps_mapM_read arguments).bind fun values => ?_) e
  refine (keeps_modify (h.poisoned clobbers (List.subset_cons_self _ _))).bind fun _ => ?_
  refine Keeps.bind ?_ fun w => keeps_modify fun m => h.written _ List.mem_cons_self m w
  cases hook values with
  | error f => intro _ _ _ e; cases e
  | ok w => exact keeps_pure w

/-- **An instruction keeps what is apart from what it changes.** -/
theorem execute (h : Apart part i) : Keeps part (execute i) := by
  have hwrite : ∀ {d w}, d ∈ changes i → Keeps part (write d w) := by
    intro d w hd
    exact keeps_modify fun m => h.written d hd m w
  cases i with
  | mov dst src =>
    exact (keeps_load h.globals src).bind (h.store (List.Subset.refl _) (List.subset_append_right _ _))
  | binary op dst src => exact h.combine
  | clear r => exact hwrite List.mem_cons_self
  | unary op r =>
    refine (keeps_read r).bind fun w => ?_
    split
    · exact keeps_fail _
    · exact hwrite List.mem_cons_self
  | setcc cond r =>
    exact (keeps_read r).bind fun w => (keeps_holds cond).bind fun b => hwrite List.mem_cons_self
  | lea dst src => exact (keeps_address h.globals src).bind fun a => hwrite List.mem_cons_self
  | jmp l => exact h.jump rfl
  | jcc cond l =>
    refine (keeps_holds cond).bind fun b => ?_
    cases b with
    | false => exact keeps_pure _
    | true => exact h.jump rfl
  | call l arguments clobbers => exact h.call
  | ret results => exact keeps_modify (h.returned ⟨results, rfl⟩)

end Apart

end

/-- An instruction without memory operands keeps memory. -/
theorem memory_execute (hi : i.memories = []) (e : execute i m = .ok () n) : n.memory = m.memory := by
  have hapart : Apart Machine.memory i :=
    ⟨fun _ _ => rfl, fun _ _ => rfl, fun _ _ _ _ => rfl, fun _ _ _ => rfl, fun h => absurd hi h,
      fun _ _ _ => rfl, fun _ _ => rfl⟩
  exact hapart.execute e

/-- An instruction keeps the registers that it does not change. -/
theorem entry_execute {r : Register} (hr : r ∉ changes i) (e : execute i m = .ok () n) :
    n.entry r = m.entry r := by
  have hapart : Apart (Machine.entry · r) i := by
    refine ⟨fun _ _ => rfl, fun _ _ => rfl, ?_, ?_, fun _ _ _ => rfl, fun _ _ _ => rfl, fun _ _ => rfl⟩
    · intro d hd m w
      refine m.entry_write w ?_
      rintro rfl
      exact hr hd
    · intro rs hrs m
      exact m.entry_poison fun h => hr (hrs h)
  exact hapart.execute e

/-! ## Control -/

/-- Two machines are at the same place of the same stream. -/
structure SameControl (m n : Machine) : Prop where
  items : n.items = m.items
  hooks : n.hooks = m.hooks
  labels : n.labels = m.labels
  position : n.position = m.position
  steps : n.steps = m.steps
  returned : n.returned = m.returned

theorem SameControl.refl (m : Machine) : SameControl m m := ⟨rfl, rfl, rfl, rfl, rfl, rfl⟩

/-- What of a machine is control. -/
def control (m : Machine) : Stream × Bindings Label Hook × Bindings Label Nat × Nat × Nat × Bool :=
  (m.items, m.hooks, m.labels, m.position, m.steps, m.returned)

theorem sameControl_of_control (h : control n = control m) : SameControl m n := by
  simp only [control, Prod.mk.injEq] at h
  obtain ⟨h₁, h₂, h₃, h₄, h₅, h₆⟩ := h
  exact ⟨h₁, h₂, h₃, h₄, h₅, h₆⟩

/-- What an instruction does to control. -/
inductive Control (i : Instr) (m n : Machine) : Prop
  /-- Control goes on. -/
  | falls (h : SameControl m n) (hi : i.fallsThrough = true)
  /-- Control continues at a label. -/
  | jumps {l : Label} {j : Nat} (hl : i.target? = some l) (hj : m.labels.get? l = some j)
      (h : n = { m with position := j })
  /-- The machine returns. -/
  | returns {results : List Register} (hi : i = .ret results) (h : n = { m with returned := true })

/-- An instruction that neither jumps nor returns goes on. -/
theorem sameControl_execute (htarget : i.target? = none) (hret : ∀ results, i ≠ .ret results)
    (e : execute i m = .ok () n) : SameControl m n := by
  have hapart : Apart control i := by
    refine ⟨fun _ _ => rfl, fun _ _ => rfl, fun _ _ _ _ => rfl, fun _ _ _ => rfl, fun _ _ _ => rfl,
      fun h => absurd htarget h, ?_⟩
    rintro ⟨results, h⟩
    exact absurd h (hret results)
  exact sameControl_of_control (hapart.execute e)

/-- **An instruction that succeeds goes on, jumps or returns**, and changes only
    what it defines. -/
theorem frame_execute (e : execute i m = .ok () n) :
    Control i m n ∧ ∀ r, r ∉ changes i → n.entry r = m.entry r := by
  refine ⟨?_, fun r hr => entry_execute hr e⟩
  cases i with
  | jmp l =>
    obtain ⟨j, hj, rfl⟩ := jump_eq_ok.1 e
    exact .jumps rfl hj rfl
  | jcc cond l =>
    obtain ⟨b, m₁, e₁, e₂⟩ := EStateM.bind_eq_ok.1 e
    obtain ⟨rfl, -⟩ := holds_eq_ok.1 e₁
    cases b with
    | false =>
      obtain ⟨-, rfl⟩ := EStateM.pure_eq_ok.1 e₂
      exact .falls (.refl _) rfl
    | true =>
      obtain ⟨j, hj, rfl⟩ := jump_eq_ok.1 e₂
      exact .jumps rfl hj rfl
  | ret results => exact .returns rfl (by cases e; rfl)
  | _ => exact .falls (sameControl_execute rfl (by rintro results h; cases h) e) rfl

theorem control_execute (e : execute i m = .ok () n) :
    Control i m n ∧ ∀ r, r ∉ changes i → n.read r = m.read r :=
  (frame_execute e).imp_right fun h r hr => Machine.read_eq_of_entry (h r hr)

/-! ## Steps -/

/-- The next instruction at a position of a stream, and where it is. -/
theorem firstInstr_eq_some {p k : Nat} {items : Stream} (h : firstInstr p items = some (i, k)) :
    p ≤ k ∧ items[k - p]? = some (.instr i) ∧
      ∀ j, p ≤ j → j < k → ∃ item, items[j - p]? = some item ∧ item.instr? = none := by
  induction items generalizing p with
  | nil => cases h
  | cons item items ih =>
    have hskip : item.instr? = none → firstInstr (p + 1) items = some (i, k) →
        p ≤ k ∧ (item :: items)[k - p]? = some (.instr i) ∧ ∀ j, p ≤ j → j < k →
          ∃ x, (item :: items)[j - p]? = some x ∧ x.instr? = none := by
      intro hitem h
      obtain ⟨hle, hk, hbetween⟩ := ih h
      refine ⟨by omega, ?_, fun j hj hjk => ?_⟩
      · rw [show k - p = k - (p + 1) + 1 by omega, List.getElem?_cons_succ]; exact hk
      · by_cases hjp : j = p
        · subst hjp
          exact ⟨item, by simp, hitem⟩
        · rw [show j - p = j - (p + 1) + 1 by omega, List.getElem?_cons_succ]
          exact hbetween j (by omega) hjk
    cases item with
    | label l => exact hskip rfl h
    | stray r => exact hskip rfl h
    | instr i' =>
      simp only [firstInstr, Option.some.injEq, Prod.mk.injEq] at h
      obtain ⟨rfl, rfl⟩ := h
      exact ⟨Nat.le_refl _, by simp, fun j hj hjk => by omega⟩

end Exec

/-- The registers that calls and returns list are physical. -/
def Instr.ListsPhysical : Instr → Prop
  | .call _ arguments clobbers =>
    (∀ r ∈ arguments, r.isPhysical = true) ∧ ∀ r ∈ clobbers, r.isPhysical = true
  | .ret results => ∀ r ∈ results, r.isPhysical = true
  | _ => True

instance : DecidablePred Instr.ListsPhysical
  | .call _ arguments clobbers =>
    inferInstanceAs (Decidable ((∀ r ∈ arguments, r.isPhysical = true) ∧
      ∀ r ∈ clobbers, r.isPhysical = true))
  | .ret results => inferInstanceAs (Decidable (∀ r ∈ results, r.isPhysical = true))
  | .mov .. | .binary .. | .clear .. | .unary .. | .setcc .. | .lea .. | .jmp .. | .jcc .. =>
    .isTrue trivial

/-- A call clobbers the result register. -/
def Instr.ClobbersResult : Instr → Prop
  | .call _ _ clobbers => Machine.resultRegister ∈ clobbers
  | _ => True

instance : DecidablePred Instr.ClobbersResult
  | .call _ _ clobbers => inferInstanceAs (Decidable (Machine.resultRegister ∈ clobbers))
  | .mov .. | .binary .. | .clear .. | .unary .. | .setcc .. | .lea .. | .jmp .. | .jcc .. | .ret .. =>
    .isTrue trivial

/-- The registers that calls and returns list are physical, and a call clobbers
    the result register. -/
structure Instr.Conventional (i : Instr) : Prop where
  listsPhysical : i.ListsPhysical
  clobbersResult : i.ClobbersResult

instance (i : Instr) : Decidable i.Conventional :=
  decidable_of_iff (i.ListsPhysical ∧ i.ClobbersResult) ⟨fun h => ⟨h.1, h.2⟩, fun h => ⟨h.1, h.2⟩⟩

theorem Instr.Conventional.mem_changes {i : Instr} (h : i.Conventional) {r : Register} :
    r ∈ Exec.changes i ↔ r ∈ i.defines := by
  cases i with
  | call l arguments clobbers =>
    refine ⟨fun hr => ?_, List.mem_cons_of_mem _⟩
    rcases List.mem_cons.1 hr with rfl | hr
    · exact h.clobbersResult
    · exact hr
  | _ => exact Iff.rfl

/-- Physical registers are not renamed, so calls of the convention are steady. -/
theorem Instr.Conventional.steady {i : Instr} {f : Register → Register} (h : i.Conventional)
    (hf : ∀ r ∈ i.mentions, r.isPhysical = true → f r = r) : Exec.Steady f i := by
  cases i with
  | call l arguments clobbers =>
    obtain ⟨harguments, hclobbers⟩ := h.listsPhysical
    have harg : ∀ r ∈ arguments, f r = r := fun r hr => hf r (List.mem_append_left _ hr) (harguments r hr)
    have hclob : ∀ r ∈ clobbers, f r = r := fun r hr => hf r (List.mem_append_right _ hr) (hclobbers r hr)
    exact ⟨harg, hclob, hclob _ h.clobbersResult⟩
  | _ => trivial

/-- `simulates_execute` for instructions of the convention, which change what they
    define. -/
theorem Exec.simulates_conventional {σ : Setting} {S S' : Register → Prop} {i : Instr}
    (hc : i.Conventional) (hi : Steady σ.rename i) (huses : ∀ r ∈ i.uses, S r)
    (hS : ∀ r, S' r → r ∉ i.defines → S r ∧
      ∀ d ∈ i.defines, σ.rename r = σ.rename d → i.copy? = some (d, r)) :
    Simulates (Agree σ S i.memories) (execute i) (execute (i.mapRegisters σ.rename)) fun _ =>
      Agree σ S' [] := by
  refine simulates_execute hi huses fun r hr hne => ?_
  obtain ⟨hr', hd⟩ := hS r hr fun hmem => hne (hc.mem_changes.2 hmem)
  exact ⟨hr', fun d hmem => hd d (hc.mem_changes.1 hmem)⟩

namespace Machine

/-- The machine that is about to execute the instruction at position `k`, which
    is counted already. -/
def fetch (m : Machine) (k : Nat) : Machine := { m with position := k + 1, steps := m.steps + 1 }

/-- The machine executes the next instruction. -/
def Step (m n : Machine) : Prop :=
  m.returned = false ∧ ∃ i k, Exec.firstInstr m.position (m.items.drop m.position) = some (i, k) ∧
    Exec.execute i (m.fetch k) = .ok () n

/-- The machine executes so many instructions. -/
inductive Steps : Nat → Machine → Machine → Prop
  | refl (m : Machine) : Steps 0 m m
  | head {j : Nat} {m₁ m₂ m₃ : Machine} (h : Step m₁ m₂) (hs : Steps j m₂ m₃) : Steps (j + 1) m₁ m₃

variable {m n : Machine}

/-- A step counts one instruction and stays in its stream. -/
theorem Step.frame (h : Step m n) :
    n.items = m.items ∧ n.hooks = m.hooks ∧ n.labels = m.labels ∧ n.steps = m.steps + 1 := by
  obtain ⟨-, i, k, -, e⟩ := h
  cases (Exec.control_execute e).1 with
  | falls h _ => exact ⟨h.items, h.hooks, h.labels, h.steps⟩
  | jumps _ _ h => subst h; exact ⟨rfl, rfl, rfl, rfl⟩
  | returns _ h => subst h; exact ⟨rfl, rfl, rfl, rfl⟩

theorem Steps.items_eq {j : Nat} (h : Steps j m n) : n.items = m.items := by
  induction h with
  | refl => rfl
  | head h _ ih => exact ih.trans h.frame.1

theorem Steps.steps_eq {j : Nat} (h : Steps j m n) : n.steps = m.steps + j := by
  induction h with
  | refl => rfl
  | head h _ ih => rw [ih, h.frame.2.2.2]; omega

end Machine

namespace Exec

variable {m n : Machine}

theorem executeAt_eq_ok {k : Nat} {i : Instr} :
    executeAt k i m = .ok () n ↔ execute i m = .ok () n := by
  unfold executeAt
  split
  · next e => rw [e]; constructor <;> intro h <;> cases h
  · exact Iff.rfl

section
variable {limit : Int} {remaining k : Nat} {i : Instr}

theorem runFor_of_returned (h : m.returned = true) : runFor limit remaining m = .ok () m := by
  unfold runFor
  simp only [bind, EStateM.bind, get, getThe, MonadStateOf.get, EStateM.get, h, if_true]
  rfl

theorem runFor_ne_ok_of_none (h : m.returned = false)
    (hnext : firstInstr m.position (m.items.drop m.position) = none) :
    runFor limit remaining m ≠ .ok () n := by
  intro e
  unfold runFor at e
  simp only [bind, EStateM.bind, get, getThe, MonadStateOf.get, EStateM.get, h, hnext] at e
  cases e

theorem runFor_zero_ne_ok (h : m.returned = false) : runFor limit 0 m ≠ .ok () n := by
  cases hnext : firstInstr m.position (m.items.drop m.position) with
  | none => exact runFor_ne_ok_of_none h hnext
  | some ik =>
    intro e
    unfold runFor at e
    simp only [bind, EStateM.bind, get, getThe, MonadStateOf.get, EStateM.get, h, hnext] at e
    cases e

theorem runFor_succ (h : m.returned = false)
    (hnext : firstInstr m.position (m.items.drop m.position) = some (i, k)) :
    runFor limit (remaining + 1) m = (executeAt k i >>= fun _ => runFor limit remaining) (m.fetch k) := by
  rw [runFor]
  simp only [bind, EStateM.bind, get, getThe, MonadStateOf.get, EStateM.get, Machine.fetch, h, hnext]
  rfl

/-- **A run succeeds if a return is reached in as many steps as allowed.** -/
theorem runFor_eq_ok :
    runFor limit remaining m = .ok () n ↔
      ∃ j ≤ remaining, Machine.Steps j m n ∧ n.returned = true := by
  induction remaining generalizing m with
  | zero =>
    cases hret : m.returned with
    | true =>
      rw [runFor_of_returned hret]
      constructor
      · intro e; cases e; exact ⟨0, Nat.le_refl 0, .refl _, hret⟩
      · rintro ⟨j, hj, hs, -⟩
        cases hs with
        | refl => rfl
        | head h _ => omega
    | false =>
      constructor
      · exact fun e => absurd e (runFor_zero_ne_ok hret)
      · rintro ⟨j, hj, hs, hn⟩
        cases hs with
        | refl => rw [hret] at hn; cases hn
        | head h _ => omega
  | succ remaining ih =>
    cases hret : m.returned with
    | true =>
      rw [runFor_of_returned hret]
      constructor
      · intro e; cases e; exact ⟨0, by omega, .refl _, hret⟩
      · rintro ⟨j, hj, hs, -⟩
        cases hs with
        | refl => rfl
        | head h _ => rw [h.1] at hret; cases hret
    | false =>
      cases hnext : firstInstr m.position (m.items.drop m.position) with
      | none =>
        refine ⟨fun e => absurd e (runFor_ne_ok_of_none hret hnext), ?_⟩
        rintro ⟨j, hj, hs, hn⟩
        cases hs with
        | refl => rw [hret] at hn; cases hn
        | head h _ =>
          obtain ⟨-, i, k, hik, -⟩ := h
          rw [hnext] at hik; cases hik
      | some ik =>
        obtain ⟨i, k⟩ := ik
        rw [runFor_succ hret hnext, EStateM.bind_eq_ok]
        constructor
        · rintro ⟨_, m₁, e₁, e₂⟩
          obtain ⟨j, hj, hs, hn⟩ := ih.1 e₂
          exact ⟨j + 1, by omega, .head ⟨hret, i, k, hnext, executeAt_eq_ok.1 e₁⟩ hs, hn⟩
        · rintro ⟨j, hj, hs, hn⟩
          cases hs with
          | refl => rw [hret] at hn; cases hn
          | @head j _ m₁ _ h hs =>
            obtain ⟨-, i', k', hik, e⟩ := h
            rw [hnext] at hik
            cases hik
            exact ⟨(), m₁, executeAt_eq_ok.2 e, ih.2 ⟨j, by omega, hs, hn⟩⟩

end

/-! ## Labels -/

/-- The labels of a stream are at their positions. -/
def Placed (items : Stream) (labels : Bindings Label Nat) : Prop :=
  ∀ l j, labels.get? l = some j ↔ items[j]? = some (.label l)

theorem define_label {l : Label} {k : Nat} :
    define (.label l, k) m = .ok () n ↔
      m.labels.get? l = none ∧ n = { m with labels := m.labels.set l k } := by
  simp only [define, bind, EStateM.bind, get, getThe, MonadStateOf.get, EStateM.get]
  cases m.labels.get? l with
  | none =>
    constructor
    · intro e; cases e; exact ⟨rfl, rfl⟩
    · rintro ⟨-, rfl⟩; rfl
  | some j =>
    constructor
    · intro e; cases e
    · rintro ⟨h, -⟩; cases h

theorem define_other {item : Item} {k : Nat} (h : item.label? = none) :
    define (item, k) m = .ok () n ↔ n = m := by
  cases item with
  | label l => cases h
  | instr i => exact EStateM.pure_eq_ok.trans ⟨fun h => h.2.symm, fun h => ⟨rfl, h.symm⟩⟩
  | stray r => exact EStateM.pure_eq_ok.trans ⟨fun h => h.2.symm, fun h => ⟨rfl, h.symm⟩⟩

/-- Defining labels adds them to those that are there. -/
theorem forM_define {xs : List (Item × Nat)} (e : xs.forM define m = .ok () n) :
    ∃ L, n = { m with labels := L } ∧
      ∀ l j, L.get? l = some j ↔ m.labels.get? l = some j ∨ (.label l, j) ∈ xs := by
  induction xs generalizing m with
  | nil =>
    cases e
    exact ⟨_, rfl, by simp⟩
  | cons x xs ih =>
    obtain ⟨item, k⟩ := x
    change (define (item, k) >>= fun _ => xs.forM define) m = _ at e
    obtain ⟨_, m₁, e₁, e₂⟩ := EStateM.bind_eq_ok.1 e
    cases hl : item.label? with
    | none =>
      rw [define_other hl] at e₁
      subst e₁
      obtain ⟨L, rfl, hL⟩ := ih e₂
      refine ⟨L, rfl, fun l j => (hL l j).trans ?_⟩
      cases item <;> simp_all [Item.label?]
    | some l₀ =>
      obtain rfl : item = .label l₀ := by cases item <;> simp_all [Item.label?]
      obtain ⟨hnone, rfl⟩ := define_label.1 e₁
      obtain ⟨L, rfl, hL⟩ := ih e₂
      refine ⟨L, rfl, fun l j => (hL l j).trans ?_⟩
      by_cases h : l = l₀
      · subst h
        simp only [Bindings.get?_set_self, hnone, List.mem_cons, Prod.mk.injEq, Option.some.injEq,
          true_and, reduceCtorEq, false_or]
        exact or_congr_left eq_comm
      · simp only [Bindings.get?_set_ne _ _ h, List.mem_cons, Prod.mk.injEq, Item.label.injEq, h,
          false_and, false_or]

theorem placed_of_forM {items : Stream} (hm : m.labels = [])
    (e : items.zipIdx.forM define m = .ok () n) :
    ∃ L, n = { m with labels := L } ∧ Placed items L := by
  obtain ⟨L, hn, hL⟩ := forM_define e
  refine ⟨L, hn, fun l j => ?_⟩
  rw [hL, hm, List.mem_zipIdx_iff_getElem?]
  simp

/-- Labels can be defined if they are new and distinct. -/
theorem forM_define_iff {items : Stream} {k : Nat} :
    (∃ n, (items.zipIdx k).forM define m = .ok () n) ↔
      (items.filterMap Item.label?).Nodup ∧ ∀ l ∈ items.filterMap Item.label?, m.labels.get? l = none := by
  induction items generalizing m k with
  | nil => exact ⟨fun _ => ⟨.nil, nofun⟩, fun _ => ⟨m, rfl⟩⟩
  | cons item items ih =>
    have hsplit : (∃ n, ((item :: items).zipIdx k).forM define m = .ok () n) ↔
        ∃ m₁, define (item, k) m = .ok () m₁ ∧ ∃ n, (items.zipIdx (k + 1)).forM define m₁ = .ok () n := by
      constructor
      · rintro ⟨n, e⟩
        change (define (item, k) >>= fun _ => (items.zipIdx (k + 1)).forM define) m = _ at e
        obtain ⟨_, m₁, e₁, e₂⟩ := EStateM.bind_eq_ok.1 e
        exact ⟨m₁, e₁, n, e₂⟩
      · rintro ⟨m₁, e₁, n, e₂⟩
        exact ⟨n, EStateM.bind_eq_ok.2 ⟨(), m₁, e₁, e₂⟩⟩
    rw [hsplit]
    cases hl : item.label? with
    | none =>
      rw [List.filterMap_cons_none hl, ← ih (k := k + 1)]
      simp only [define_other hl, exists_eq_left]
    | some l =>
      obtain rfl : item = .label l := by cases item <;> simp_all [Item.label?]
      rw [List.filterMap_cons_some hl, List.nodup_cons, List.forall_mem_cons]
      simp only [define_label, and_assoc, exists_and_left, exists_eq_left, ih]
      constructor
      · rintro ⟨hnew, hnodup, hrest⟩
        refine ⟨fun hmem => ?_, hnodup, hnew, fun l' hl' => ?_⟩
        · simpa using hrest l hmem
        · have := hrest l' hl'
          by_cases e : l' = l
          · subst e; simp at this
          · rwa [Bindings.get?_set_ne _ _ e] at this
      · rintro ⟨hnot, hnodup, hnew, hrest⟩
        refine ⟨hnew, hnodup, fun l' hl' => ?_⟩
        have hne : l' ≠ l := fun e => hnot (e ▸ hl')
        rw [Bindings.get?_set_ne _ _ hne]
        exact hrest l' hl'

/-- **A run defines the labels and reaches a return.** -/
theorem run_eq_ok {limit : Int} :
    run limit m = .ok () n ↔
      ∃ m₁, m.items.zipIdx.forM define m = .ok () m₁ ∧
        ∃ j ≤ (limit - m.steps).toNat, Machine.Steps j m₁ n ∧ n.returned = true := by
  have e : run limit m =
      (m.items.zipIdx.forM define >>= fun _ => runFor limit (limit - m.steps).toNat) m := rfl
  rw [e, EStateM.bind_eq_ok]
  simp only [runFor_eq_ok]
  exact ⟨fun ⟨_, m₁, h⟩ => ⟨m₁, h⟩, fun ⟨m₁, h⟩ => ⟨(), m₁, h⟩⟩

end Exec

namespace Machine

variable {m : Machine} {limit : Int}

/-- The outcome of a run that returns. -/
theorem run_eq_none {n : Machine} : m.run limit = (none, n) ↔ Exec.run limit m = .ok () n := by
  unfold run
  split
  · next e => rw [e]; simp
  · next e => rw [e]; simp

end Machine

end Codegen
