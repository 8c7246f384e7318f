/-
  Instructions describe themselves truthfully.

  What an instruction does depends only on the registers that it says it reads,
  and on what is no register.  Two machines that are `Similar` there fail for the
  same reason or succeed alike (`parallel_execute`).  Then they are similar on the
  registers that the instruction says it writes, all others are as they were, and
  control goes where the instruction says (`execute_described`).
-/
import Codegen.Proofs.Machine.Runs

namespace Codegen

namespace Machine

variable {S S' : Register → Prop} {m n : Machine}

/-- The machines hold the same, as far as can be seen from outside, but for registers
    that are not in a set. -/
structure Similar (S : Register → Prop) (m n : Machine) : Prop where
  hooks : ∀ l, n.hooks.get? l = m.hooks.get? l
  labels : ∀ l, n.labels.get? l = m.labels.get? l
  globals : ∀ l, n.globals.lookup l = m.globals.lookup l
  /-- The next label will get the same address, too. -/
  used : n.globals.length = m.globals.length
  memory : ∀ a, n.word a = m.word a
  compared : n.compared = m.compared
  position : n.position = m.position
  reads : ∀ r, S r → n.read r = m.read r

namespace Similar

theorem mono (h : Similar S m n) (hS : ∀ r, S' r → S r) : Similar S' m n :=
  { h with reads := fun r hr => h.reads r (hS r hr) }

theorem globalAddress (h : Similar S m n) (l : Label) :
    (n.globalAddress l).1 = (m.globalAddress l).1 ∧
      Similar S (m.globalAddress l).2 (n.globalAddress l).2 := by
  unfold Machine.globalAddress
  rw [h.globals l]
  cases m.globals.lookup l with
  | some a => exact ⟨rfl, h⟩
  | none =>
    rw [h.used]
    refine ⟨rfl, { h with globals := fun l' => ?_, used := by simp [h.used] }⟩
    simp only [List.lookup_append, h.globals l']

theorem write (h : Similar S m n) (d : Register) (w : Word) :
    Similar (fun r => S r ∨ r ∈ [d]) (m.write d w) (n.write d w) :=
  { h with
    reads := fun r hr => by
      rw [read_write, read_write]
      split
      · rfl
      · next hne => exact h.reads r (hr.resolve_right (by simpa using hne)) }

theorem poison (h : Similar S m n) (rs : List Register) :
    Similar (fun r => S r ∨ r ∈ rs) (m.poison rs) (n.poison rs) :=
  { h with
    reads := fun r hr => by
      rw [read_poison, read_poison]
      split
      · rfl
      · next hne => exact h.reads r (hr.resolve_right hne) }

theorem store (h : Similar S m n) (a w : Word) : Similar S (m.store a w) (n.store a w) :=
  { h with
    memory := fun a' => by
      by_cases ha : a' = a
      · subst ha; simp [word, Machine.store]
      · simpa [word, Machine.store, ha] using h.memory a' }

end Similar

end Machine

namespace Exec

open Machine

variable {α β : Type} {S S' T : Register → Prop} {m n : Machine} {i : Instr}

/-- From similar machines the computation fails for the same reason, or it succeeds
    with the same result and leaves similar machines. -/
def Parallel (S S' : Register → Prop) (x : Exec α) : Prop :=
  ∀ ⦃m n : Machine⦄, Similar S m n →
    (∃ stop m' n', x m = .error stop m' ∧ x n = .error stop n') ∨
      ∃ a m' n', x m = .ok a m' ∧ x n = .ok a n' ∧ Similar S' m' n'

theorem Parallel.mono {x : Exec α} (h : Parallel S S' x) (hS : ∀ r, T r → S' r) : Parallel S T x := by
  intro m n hmn
  refine (h hmn).imp_right ?_
  rintro ⟨a, m', n', hm, hn, hs⟩
  exact ⟨a, m', n', hm, hn, hs.mono hS⟩

theorem Parallel.bind {x : Exec α} {k : α → Exec β} (h : Parallel S S' x)
    (hk : ∀ a, Parallel S' T (k a)) : Parallel S T (x >>= k) := by
  intro m n hmn
  change (∃ stop m' n', EStateM.bind x k m = _ ∧ EStateM.bind x k n = _) ∨
    ∃ b m' n', EStateM.bind x k m = _ ∧ EStateM.bind x k n = _ ∧ _
  unfold EStateM.bind
  obtain ⟨stop, m', n', hm, hn⟩ | ⟨a, m', n', hm, hn, hs⟩ := h hmn
  · rw [hm, hn]
    exact Or.inl ⟨stop, m', n', rfl, rfl⟩
  · rw [hm, hn]
    exact hk a hs

theorem parallel_pure (a : α) : Parallel S S (pure a) := fun m n h =>
  Or.inr ⟨a, m, n, rfl, rfl, h⟩

theorem parallel_throw (stop : Stop) : Parallel S S' (throw stop : Exec α) := fun m n _ =>
  Or.inl ⟨stop, m, n, rfl, rfl⟩

theorem parallel_modify {g : Machine → Machine} (h : ∀ m n, Similar S m n → Similar S' (g m) (g n)) :
    Parallel S S' (modify g) := fun m n hmn => Or.inr ⟨(), g m, g n, rfl, rfl, h m n hmn⟩

/-- A computation may look at what similar machines have in common. -/
theorem parallel_get {k : Machine → Exec α} (hsame : ∀ m n, Similar S m n → k n = k m)
    (hk : ∀ m, Parallel S S' (k m)) : Parallel S S' (get >>= k) := by
  intro m n hmn
  have h := hk m hmn
  change (∃ stop m' n', k m m = _ ∧ k n n = _) ∨ ∃ b m' n', k m m = _ ∧ k n n = _ ∧ _
  rwa [hsame m n hmn]

/-! ## Operands -/

theorem parallel_ofTrouble (x : Except Trouble α) : Parallel S S (ofTrouble x) := by
  cases x with
  | ok a => exact parallel_pure a
  | error t => exact parallel_throw _

theorem parallel_read {r : Register} (hr : S r) : Parallel S S (read r) :=
  parallel_get (fun _ _ h => congrArg ofTrouble (h.reads r hr)) fun _ => parallel_ofTrouble _

theorem parallel_write (d : Register) (w : Word) :
    Parallel S (fun r => S r ∨ r ∈ [d]) (write d w) :=
  parallel_modify fun _ _ h => h.write d w

theorem parallel_anchor (l : Label) : Parallel S S (anchor l) := by
  unfold anchor
  split
  · exact parallel_pure 0
  · intro m n h
    obtain ⟨ha, hs⟩ := h.globalAddress l
    refine Or.inr ⟨(m.globalAddress l).1, _, (n.globalAddress l).2, rfl, ?_, hs⟩
    rw [← ha]; rfl

theorem parallel_base {r? : Option Register} (hr : ∀ r ∈ r?.toList, S r) : Parallel S S (base r?) := by
  cases r? with
  | none => exact parallel_pure 0
  | some r => exact parallel_read (hr r List.mem_cons_self)

theorem parallel_address {o : Mem} (ho : ∀ r ∈ o.registers, S r) : Parallel S S (address o) :=
  (parallel_anchor o.label).bind fun _ => (parallel_base ho).bind fun _ => parallel_pure _

theorem parallel_load {o : Operand} (ho : ∀ r ∈ o.registers, S r) : Parallel S S (load o) := by
  cases o with
  | imm w => exact parallel_pure w
  | reg r => exact parallel_read (ho r (by simp [Operand.registers]))
  | mem q =>
    exact (parallel_address ho).bind fun a =>
      parallel_get (fun _ _ h => congrArg pure (h.memory a)) fun _ => parallel_pure _

theorem parallel_store {o : Operand} (w : Word) (ho : ∀ r ∈ o.addressUses, S r) :
    Parallel S (fun r => S r ∨ r ∈ o.defined) (store w o) := by
  cases o with
  | imm v => exact parallel_throw _
  | reg r => exact parallel_write r w
  | mem q =>
    refine (parallel_address ho).bind fun a => parallel_modify fun _ _ h => (h.store a w).mono ?_
    simp [Operand.defined, Operand.register?]

/-! ## Instructions -/

theorem parallel_holds (cond : String) : Parallel S S (holds cond) := by
  unfold holds
  cases condition? cond with
  | none => exact parallel_throw _
  | some test =>
    exact parallel_get (fun m n h => by rw [h.compared]) fun m => parallel_pure _

theorem parallel_jump (l : Label) : Parallel S S (jump l) := by
  refine parallel_get (fun m n h => by rw [h.labels l]) fun m => ?_
  cases m.labels.get? l with
  | none => exact parallel_throw _
  | some position => exact parallel_modify fun _ _ h => { h with position := rfl }

theorem parallel_combine {op : String} {dst src : Operand}
    (huses : ∀ r ∈ dst.registers ++ src.registers, S r) :
    Parallel S (fun r => S r ∨ r ∈ if op = "cmp" then [] else dst.defined) (combine op dst src) := by
  refine (parallel_load fun r hr => huses r (by simp [hr])).bind fun left =>
    (parallel_load fun r hr => huses r (by simp [hr])).bind fun right => ?_
  split
  · refine parallel_modify fun m n h => Similar.mono (S := S) { h with compared := rfl } ?_
    simp
  · cases arithmetic? op with
    | none => exact parallel_throw _
    | some f =>
      refine parallel_store _ fun r hr => huses r (List.mem_append_left _ ?_)
      cases dst with
      | mem q => exact hr
      | reg | imm => cases hr

theorem parallel_mapM_read {rs : List Register} (hrs : ∀ r ∈ rs, S r) : Parallel S S (rs.mapM read) := by
  induction rs with
  | nil => exact parallel_pure []
  | cons r rs ih =>
    rw [List.mapM_cons]
    exact (parallel_read (hrs r List.mem_cons_self)).bind fun w =>
      (ih fun x hx => hrs x (List.mem_cons_of_mem _ hx)).bind fun ws => parallel_pure (w :: ws)

theorem parallel_call {l : Label} {arguments clobbers : List Register} (huses : ∀ r ∈ arguments, S r) :
    Parallel S (fun r => S r ∨ r ∈ clobbers) (call l arguments clobbers) := by
  refine parallel_get (fun m n h => by rw [h.hooks l]) fun m => ?_
  cases m.hooks.get? l with
  | none => exact parallel_throw _
  | some hook =>
    refine (parallel_mapM_read huses).bind fun values =>
      (parallel_modify fun _ _ h => h.poison clobbers).bind fun _ => Parallel.bind ?_ fun w =>
        (parallel_write resultRegister w).mono fun r hr => Or.inl hr
    cases hook values with
    | ok w => exact parallel_pure w
    | error f => exact parallel_throw _

/-- **What an instruction does depends on the registers that it reads**, and it makes
    machines similar on the registers that it writes. -/
theorem parallel_execute (huses : ∀ r ∈ i.uses, S r) :
    Parallel S (fun r => S r ∨ r ∈ i.defines) (execute i) := by
  -- instructions that write no register
  have hnone : Parallel S S (execute i) → Parallel S (fun r => S r ∨ r ∈ []) (execute i) :=
    fun h => h.mono (by simp)
  cases i with
  | mov dst src =>
    exact (parallel_load fun r hr => huses r (List.mem_append_left _ hr)).bind fun w =>
      parallel_store w fun r hr => huses r (List.mem_append_right _ hr)
  | binary op dst src => exact parallel_combine huses
  | clear r => exact parallel_write r 0
  | unary op r =>
    refine (parallel_read (huses r List.mem_cons_self)).bind fun w => ?_
    cases change? op with
    | none => exact parallel_throw _
    | some f => exact parallel_write r (f w)
  | setcc cond r =>
    exact (parallel_read (huses r List.mem_cons_self)).bind fun w =>
      (parallel_holds cond).bind fun b => parallel_write r _
  | lea dst src => exact (parallel_address huses).bind fun a => parallel_write dst a
  | jmp l => exact hnone (parallel_jump l)
  | jcc cond l =>
    refine hnone ((parallel_holds cond).bind fun b => ?_)
    cases b with
    | true => exact parallel_jump l
    | false => exact parallel_pure ()
  | call l arguments clobbers => exact parallel_call huses
  | ret results => exact hnone (parallel_modify fun _ _ h => { h with })

end Exec

/-- What an instruction says about itself, and its execution from one machine to
    another: it writes no register but those that it defines.  Control goes on only if it
    falls through, else it continues at its target, or the run is over. -/
structure Instr.Describes (i : Instr) (m n : Machine) : Prop where
  keeps : ∀ r, r ∉ i.defines → n.entry r = m.entry r
  continues :
    n.returned = m.returned ∧
        (i.fallsThrough = true ∧ n.position = m.position ∨
          ∃ l, i.target? = some l ∧ m.labels.get? l = some n.position) ∨
      n.returned = true ∧ i.fallsThrough = false ∧ i.target? = none

namespace Exec

open Machine

variable {m n m' n' : Machine} {i : Instr}

theorem describes_of_execute
    (hi : ∀ l arguments clobbers, i = .call l arguments clobbers → resultRegister ∈ clobbers)
    (e : execute i m = .ok () n) : i.Describes m n := by
  obtain ⟨hcontrol, hframe⟩ := frame_execute e
  refine ⟨fun r hr => hframe r fun hmem => hr ?_, ?_⟩
  · cases i with
    | call l arguments clobbers =>
      rcases List.mem_cons.1 hmem with rfl | hmem
      · exact hi l arguments clobbers rfl
      · exact hmem
    | _ => exact hmem
  · cases hcontrol with
    | falls hsame hfalls => exact Or.inl ⟨hsame.returned, Or.inl ⟨hfalls, hsame.position⟩⟩
    | jumps hl hj hn =>
      subst hn
      exact Or.inl ⟨rfl, Or.inr ⟨_, hl, hj⟩⟩
    | returns hret hn =>
      subst hret hn
      exact Or.inr ⟨rfl, rfl, rfl⟩

/-- Whether the run is over does not depend on the machine. -/
theorem returned_of_describes (hm : i.Describes m m') (hn : i.Describes n n')
    (h : n.returned = m.returned) : n'.returned = m'.returned := by
  -- an instruction that ends the run neither falls through nor has a target
  have hnot : ∀ {m m' : Machine}, (i.fallsThrough = true ∧ m'.position = m.position ∨
      ∃ l, i.target? = some l ∧ m.labels.get? l = some m'.position) →
        ¬(i.fallsThrough = false ∧ i.target? = none) := by
    rintro m m' (⟨hfalls, -⟩ | ⟨l, hl, -⟩) ⟨hfalls', htarget⟩
    · rw [hfalls] at hfalls'; cases hfalls'
    · rw [hl] at htarget; cases htarget
  rcases hm.continues with ⟨hm, hgoes⟩ | ⟨hm, hends⟩
  · rcases hn.continues with ⟨hn, -⟩ | ⟨-, hends⟩
    · rw [hn, hm, h]
    · exact absurd hends (hnot hgoes)
  · rcases hn.continues with ⟨-, hgoes⟩ | ⟨hn, -⟩
    · exact absurd hends (hnot hgoes)
    · rw [hn, hm]

/-- **Instructions describe themselves truthfully.**  From machines that agree on what an
    instruction uses and on all that is no register, it fails for the same reason or
    succeeds in both.  Then the machines agree on what it defines, and on whether the run
    is over if they did so before.  In each of them nothing else is written and control
    goes where the instruction says.

    The position of a machine that executes an instruction is already that of the item
    behind it. -/
theorem execute_described (i : Instr)
    (hi : ∀ l arguments clobbers, i = .call l arguments clobbers → resultRegister ∈ clobbers)
    {m n : Machine} (h : Similar (· ∈ i.uses) m n) :
    (∃ stop m' n', execute i m = .error stop m' ∧ execute i n = .error stop n') ∨
      ∃ m' n', execute i m = .ok () m' ∧ execute i n = .ok () n' ∧
        Similar (· ∈ i.defines) m' n' ∧ (n.returned = m.returned → n'.returned = m'.returned) ∧
        i.Describes m m' ∧ i.Describes n n' := by
  refine (parallel_execute (fun _ hr => hr) h).imp_right ?_
  rintro ⟨_, m', n', hm, hn, hs⟩
  have hdm := describes_of_execute hi hm
  have hdn := describes_of_execute hi hn
  exact ⟨m', n', hm, hn, hs.mono fun _ => Or.inr, returned_of_describes hdm hdn, hdm, hdn⟩

/-- A machine with a callee that doubles its argument, which is 5. -/
def doubling : Machine :=
  (start [] [("double", fun ws => .ok (2 * ws.sum))]).write (.physical .rdi) 5

/-- A call gives the same result on a machine with one more register, which it keeps. -/
theorem execute_described_double :
    ∃ m' n', execute (.call "double" [.physical .rdi] [.physical .rax, .physical .rdi]) doubling = .ok () m' ∧
      execute (.call "double" [.physical .rdi] [.physical .rax, .physical .rdi])
        (doubling.write (.physical .rbx) 7) = .ok () n' ∧
      n'.read (.physical .rax) = m'.read (.physical .rax) ∧ n'.read (.physical .rbx) = .ok 7 := by
  have hsimilar : Similar (· ∈ [.physical .rdi]) doubling (doubling.write (.physical .rbx) 7) :=
    ⟨fun _ => rfl, fun _ => rfl, fun _ => rfl, rfl, fun _ => rfl, rfl, rfl, by simp; rfl⟩
  obtain ⟨stop, m', n', hm, -⟩ | ⟨m', n', hm, hn, hs, -, -, hkeeps⟩ := execute_described
    (.call "double" [.physical .rdi] [.physical .rax, .physical .rdi])
    (fun l arguments clobbers e => by cases e; exact List.mem_cons_self) hsimilar
  · cases hm
  · exact ⟨m', n', hm, hn, hs.reads _ (by decide), (read_eq_of_entry (hkeeps.keeps _ (by decide))).trans rfl⟩

end Exec

end Codegen
