/-
  Machines that agree.

  Two machines run corresponding instructions: the second one has its registers
  renamed, and may have its code and a part of its memory elsewhere.  `Agree`
  says that they agree on the registers of a set.  If the set holds what an
  instruction reads, and what it writes is kept apart from what is needed later,
  then the second machine can follow the first one (`simulates_execute`).
-/
import Codegen.Machine.Run
import Codegen.Proofs.Outcomes

namespace Codegen

/-! ## Reading and writing -/

namespace Machine

variable {m : Machine} {r d : Register} {w : Word}

theorem read_write (m : Machine) (d r : Register) (w : Word) :
    (m.write d w).read r = if r = d then .ok w else m.read r := by
  by_cases h : r = d
  · subst h; simp [read, write]
  · simp only [read, write, Bindings.get?_set_ne _ _ h, List.mem_filter, h, decide_not, decide_false,
      Bool.not_false, and_true, if_false]

theorem read_poison (m : Machine) (rs : List Register) (r : Register) :
    (m.poison rs).read r = if r ∈ rs then .error (.clobbered r) else m.read r := by
  by_cases h : r ∈ rs
  · simp [read, poison, h]
  · simp [read, poison, h]

/-- Later labels get addresses, earlier ones keep theirs. -/
def Extends (G G' : List (Label × Word)) : Prop :=
  ∀ ⦃l : Label⦄ ⦃a : Word⦄, G.lookup l = some a → G'.lookup l = some a

theorem Extends.refl (G : List (Label × Word)) : Extends G G := fun _ _ h => h

theorem extends_append (G G' : List (Label × Word)) : Extends G (G ++ G') := fun l a h => by
  rw [List.lookup_append, h]; rfl

theorem globalAddress_eq (m : Machine) (l : Label) :
    ∃ G, Extends m.globals G ∧ (m.globalAddress l).2 = { m with globals := G } := by
  unfold globalAddress
  split
  · exact ⟨m.globals, Extends.refl _, rfl⟩
  · exact ⟨_, extends_append _ _, rfl⟩

end Machine

namespace Exec

variable {α β : Type} {x : Exec α} {k : α → Exec β} {m n : Machine} {a : α} {b : β}

theorem fail_ne_ok {t : Trouble} : (fail t : Exec α) m ≠ .ok a n := by
  intro h; cases h

theorem read_eq_ok {r : Register} {w : Word} : read r m = .ok w n ↔ m = n ∧ m.read r = .ok w := by
  change ofTrouble (m.read r) m = _ ↔ _
  cases h : m.read r with
  | ok v =>
    refine EStateM.pure_eq_ok.trans ?_
    constructor
    · rintro ⟨rfl, rfl⟩; exact ⟨rfl, rfl⟩
    · rintro ⟨rfl, e⟩; cases e; exact ⟨rfl, rfl⟩
  | error t =>
    constructor
    · intro h; cases h
    · rintro ⟨-, h⟩; cases h

theorem jump_eq_ok {l : Label} {p : Unit} :
    jump l m = .ok p n ↔ ∃ j, m.labels.get? l = some j ∧ n = { m with position := j } := by
  constructor
  · intro e
    obtain ⟨m₁, m₂, e₁, e₂⟩ := EStateM.bind_eq_ok.1 e
    cases e₁
    cases hj : m.labels.get? l with
    | none => rw [hj] at e₂; exact absurd e₂ fail_ne_ok
    | some j =>
      rw [hj] at e₂
      cases e₂
      exact ⟨j, rfl, rfl⟩
  · rintro ⟨j, hj, rfl⟩
    exact EStateM.bind_eq_ok.2 ⟨m, m, rfl, by rw [hj]; rfl⟩

theorem holds_eq_ok {cond : String} {b : Bool} :
    holds cond m = .ok b n ↔
      m = n ∧ ∃ test, condition? cond = some test ∧ test m.compared.1 m.compared.2 = b := by
  cases hc : condition? cond with
  | none =>
    simp only [holds, hc]
    constructor
    · intro e; cases e
    · rintro ⟨-, _, h, -⟩; cases h
  | some test =>
    simp only [holds, hc]
    constructor
    · intro e; cases e; exact ⟨rfl, test, rfl, rfl⟩
    · rintro ⟨rfl, _, h, rfl⟩; cases h; rfl

theorem call_eq_ok {l : Label} {arguments clobbers : List Register} :
    call l arguments clobbers m = .ok () n ↔
      ∃ hook, m.hooks.get? l = some hook ∧
        (do let values ← arguments.mapM read
            modify (·.poison clobbers)
            let w ← ofFault (hook values)
            write Machine.resultRegister w : Exec Unit) m = .ok () n := by
  simp only [call, bind, EStateM.bind, get, getThe, MonadStateOf.get, EStateM.get]
  cases m.hooks.get? l with
  | none =>
    constructor
    · exact fun h => absurd h fail_ne_ok
    · rintro ⟨_, h, -⟩; cases h
  | some hook =>
    constructor
    · exact fun h => ⟨hook, rfl, h⟩
    · rintro ⟨_, h, h'⟩; cases h; exact h'

/-- The computation `x'` can follow `x` from related machines. -/
def Simulates (R : Machine → Machine → Prop) (x x' : Exec α) (Q : α → Machine → Machine → Prop) :
    Prop :=
  ∀ ⦃m m' : Machine⦄, R m m' → ∀ ⦃a : α⦄ ⦃n : Machine⦄, x m = .ok a n →
    ∃ n', x' m' = .ok a n' ∧ Q a n n'

section
variable {R : Machine → Machine → Prop} {x' : Exec α} {k' : α → Exec β}
  {Q Q' : α → Machine → Machine → Prop} {T : β → Machine → Machine → Prop}

theorem Simulates.bind (h : Simulates R x x' Q) (hk : ∀ a, Simulates (Q a) (k a) (k' a) T) :
    Simulates R (x >>= k) (x' >>= k') T := by
  intro m m' hR b n e
  obtain ⟨a, m₁, e₁, e₂⟩ := EStateM.bind_eq_ok.1 e
  obtain ⟨m₁', e₁', hQ⟩ := h hR e₁
  obtain ⟨n', e₂', hT⟩ := hk a hQ e₂
  exact ⟨n', EStateM.bind_eq_ok.2 ⟨a, m₁', e₁', e₂'⟩, hT⟩

theorem simulates_pure (a : α) (h : ∀ m m', R m m' → Q a m m') : Simulates R (pure a) (pure a) Q := by
  intro m m' hR b n e
  obtain ⟨rfl, rfl⟩ := EStateM.pure_eq_ok.1 e
  exact ⟨m', rfl, h _ _ hR⟩

theorem simulates_fail (t : Trouble) (x' : Exec α) : Simulates R (fail t) x' Q := by
  intro m m' _ b n e
  exact absurd e fail_ne_ok

theorem simulates_modify {g g' : Machine → Machine} {Q : Unit → Machine → Machine → Prop}
    (h : ∀ m m', R m m' → Q () (g m) (g' m')) : Simulates R (modify g) (modify g') Q := by
  intro m m' hR b n e
  cases e
  exact ⟨g' m', rfl, h m m' hR⟩

end

end Exec

/-! ## Agreement -/

/-- The memory operand that an operand is. -/
def Operand.memories : Operand → List Mem
  | .mem o => [o]
  | _ => []

/-- The memory operands that an instruction accesses, in order. -/
def Instr.memories : Instr → List Mem
  | .mov dst src => src.memories ++ dst.memories
  | .binary op dst src =>
    dst.memories ++ src.memories ++ if op = "cmp" then [] else dst.memories
  | _ => []

/-- The addresses of memory operands, found one after the other, are near. -/
def Exec.Near (near : Word → Prop) : List Mem → Machine → Prop
  | [], _ => True
  | o :: os, m => ∀ a n, Exec.address o m = .ok a n → near a ∧ Near near os n

theorem Exec.near_of_forall {near : Word → Prop} (h : ∀ a, near a) (os : List Mem) (m : Machine) :
    Near near os m := by
  induction os generalizing m with
  | nil => trivial
  | cons o os ih => exact fun a n _ => ⟨h a, ih n⟩

theorem Exec.Near.mono {near near' : Word → Prop} (h : ∀ a, near a → near' a) {os : List Mem} {m : Machine}
    (hos : Near near os m) : Near near' os m := by
  induction os generalizing m with
  | nil => trivial
  | cons o os ih => exact fun a n e => ⟨h a (hos a n e).1, ih (hos a n e).2⟩

/-- How a second machine corresponds to a first one. -/
structure Setting where
  /-- Where a register of the first machine lives in the second one. -/
  rename : Register → Register
  /-- The addresses that both may use. -/
  near : Word → Prop
  /-- What the memories have in common. -/
  memory : Bindings Word Word → Bindings Word Word → Prop
  /-- Which positions correspond. -/
  place : Nat → Nat → Prop
  get : ∀ {x y a}, memory x y → near a → y.get? a = x.get? a
  set : ∀ {x y a} (w : Word), memory x y → near a → memory (x.set a w) (y.set a w)

/-- Registers are renamed; memory and positions are the same. -/
def Setting.ofRename (f : Register → Register) : Setting where
  rename := f
  near _ := True
  memory := Eq
  place := Eq
  get h _ := by rw [h]
  set _ h _ := by rw [h]

/-- What is read from the second machine is what is read from the first one.  A
    virtual register that cannot be read may be anything. -/
def Passes (r : Register) (a b : Except Trouble Word) : Prop :=
  a = b ∨ r.isPhysical = false ∧ ∃ t, a = .error t

theorem Passes.refl (r : Register) (a : Except Trouble Word) : Passes r a a := Or.inl rfl

theorem Passes.ok {r : Register} {w : Word} {b : Except Trouble Word} (h : Passes r (.ok w) b) :
    b = .ok w := by
  rcases h with h | ⟨-, t, h⟩
  · exact h.symm
  · cases h

/-- The machines agree on the registers of a set, and the listed memory operands
    may be used. -/
structure Agree (σ : Setting) (S : Register → Prop) (mems : List Mem) (m m' : Machine) : Prop where
  hooks : m'.hooks = m.hooks
  globals : m'.globals = m.globals
  compared : m'.compared = m.compared
  returned : m'.returned = m.returned
  labels : ∀ {l j}, m.labels.get? l = some j → ∃ j', m'.labels.get? l = some j' ∧ σ.place j j'
  position : σ.place m.position m'.position
  memory : σ.memory m.memory m'.memory
  reads : ∀ {r}, S r → Passes r (m.read r) (m'.read (σ.rename r))
  safe : Exec.Near σ.near mems m

/-- What is needed after registers were written: the registers themselves, and
    registers that do not share their places. -/
def Spares (σ : Setting) (S S' : Register → Prop) (ds : List Register) : Prop :=
  ∀ r, S' r → r ∉ ds → S r ∧ ∀ d ∈ ds, σ.rename r ≠ σ.rename d

namespace Agree

variable {σ : Setting} {S S' : Register → Prop} {mems : List Mem} {m m' : Machine}

theorem forget (h : Agree σ S mems m m') : Agree σ S [] m m' := { h with reads := h.reads, safe := trivial }

theorem globalAddress (h : Agree σ S [] m m') (l : Label) :
    (m'.globalAddress l).1 = (m.globalAddress l).1 ∧
      Agree σ S [] (m.globalAddress l).2 (m'.globalAddress l).2 := by
  unfold Machine.globalAddress
  rw [h.globals]
  cases hl : m.globals.lookup l with
  | some a => exact ⟨rfl, h⟩
  | none =>
    exact ⟨rfl, { h with globals := rfl, reads := h.reads, safe := trivial }⟩

theorem write (h : Agree σ S mems m m') (d : Register) (w : Word)
    (hS : Spares σ S S' [d]) : Agree σ S' [] (m.write d w) (m'.write (σ.rename d) w) :=
  { h with
    reads := fun {r} hr => by
      rw [Machine.read_write, Machine.read_write]
      by_cases hrd : r = d
      · rw [if_pos hrd, if_pos (congrArg σ.rename hrd)]; exact Passes.refl _ _
      · obtain ⟨hr', hne⟩ := hS r hr (by simpa using hrd)
        rw [if_neg hrd, if_neg (hne d (by simp))]
        exact h.reads hr'
    safe := trivial }

theorem shrink (h : Agree σ S mems m m') (hS : ∀ r, S' r → S r) : Agree σ S' [] m m' :=
  { h with reads := fun hr => h.reads (hS _ hr), safe := trivial }

theorem store (h : Agree σ S mems m m') {a : Word} (w : Word) (ha : σ.near a)
    (hS : ∀ r, S' r → S r) : Agree σ S' [] (m.store a w) (m'.store a w) :=
  { h with
    memory := σ.set w h.memory ha
    reads := fun hr => h.reads (hS _ hr)
    safe := trivial }

theorem poison (h : Agree σ S mems m m') {rs : List Register}
    (hrs : ∀ r ∈ rs, σ.rename r = r) (hS : Spares σ S S' rs) :
    Agree σ S' [] (m.poison rs) (m'.poison rs) :=
  { h with
    reads := fun {r} hr => by
      rw [Machine.read_poison, Machine.read_poison]
      by_cases hmem : r ∈ rs
      · rw [hrs r hmem, if_pos hmem, if_pos hmem]; exact Passes.refl _ _
      · obtain ⟨hr', hne⟩ := hS r hr hmem
        have hnot : σ.rename r ∉ rs := fun hr'' => hne _ hr'' (hrs _ hr'').symm
        rw [if_neg hmem, if_neg hnot]
        exact h.reads hr'
    safe := trivial }

end Agree

namespace Exec

variable {σ : Setting} {S S' : Register → Prop} {mems : List Mem} {m m' : Machine} {r d : Register}

theorem simulates_read (hr : S r) :
    Simulates (Agree σ S mems) (read r) (read (σ.rename r)) fun _ => Agree σ S mems := by
  intro m m' h w n e
  obtain ⟨rfl, hw⟩ := read_eq_ok.1 e
  have := h.reads hr
  rw [hw] at this
  exact ⟨m', read_eq_ok.2 ⟨rfl, this.ok⟩, h⟩

theorem simulates_global (l : Label) :
    Simulates (Agree σ S []) (global l) (global l) fun _ => Agree σ S [] := by
  intro m m' h a n e
  obtain ⟨ha, hs⟩ := h.globalAddress l
  have e₁ : (m.globalAddress l).1 = a ∧ (m.globalAddress l).2 = n := by
    cases e; exact ⟨rfl, rfl⟩
  obtain ⟨rfl, rfl⟩ := e₁
  refine ⟨(m'.globalAddress l).2, ?_, hs⟩
  rw [← ha]; rfl

theorem simulates_anchor (l : Label) :
    Simulates (Agree σ S []) (anchor l) (anchor l) fun _ => Agree σ S [] := by
  unfold anchor
  split
  · exact simulates_pure _ fun _ _ h => h
  · exact simulates_global l

theorem simulates_address {o : Mem} (ho : ∀ r ∈ o.registers, S r) :
    Simulates (Agree σ S []) (address o) (address (o.mapRegisters σ.rename)) fun _ =>
      Agree σ S [] := by
  refine Simulates.bind (simulates_anchor o.label) fun start =>
    Simulates.bind (Q := fun _ => Agree σ S []) ?_ fun offset => simulates_pure _ fun _ _ h => h
  unfold Mem.mapRegisters
  cases hb : o.base with
  | none => exact simulates_pure _ fun _ _ h => h
  | some r => exact simulates_read (ho r (by simp [Mem.registers, hb]))

/-- The address of an operand that may be used is near. -/
theorem Agree.address {o : Mem} {a : Word} {n : Machine} (h : Agree σ S (o :: mems) m m')
    (ho : ∀ r ∈ o.registers, S r) (e : Exec.address o m = .ok a n) :
    σ.near a ∧ ∃ n', Exec.address (o.mapRegisters σ.rename) m' = .ok a n' ∧ Agree σ S mems n n' := by
  obtain ⟨hnear, hsafe⟩ := h.safe a n e
  obtain ⟨n', e', hn⟩ := simulates_address ho h.forget e
  exact ⟨hnear, n', e', { hn with reads := hn.reads, safe := hsafe }⟩

theorem simulates_load {o : Operand} (ho : ∀ r ∈ o.registers, S r) :
    Simulates (Agree σ S (o.memories ++ mems)) (load o) (load (o.mapRegisters σ.rename)) fun _ =>
      Agree σ S mems := by
  cases o with
  | imm w => exact simulates_pure _ fun _ _ h => h
  | reg r => exact simulates_read (ho r (by simp [Operand.registers]))
  | mem q =>
    intro m m' h w n e
    obtain ⟨a, m₁, e₁, e₂⟩ := EStateM.bind_eq_ok.1 e
    obtain ⟨hnear, m₁', e₁', h₁⟩ := Agree.address h ho e₁
    have e₂ : m₁.word a = w ∧ m₁ = n := by cases e₂; exact ⟨rfl, rfl⟩
    obtain ⟨rfl, rfl⟩ := e₂
    refine ⟨m₁', EStateM.bind_eq_ok.2 ⟨a, m₁', e₁', ?_⟩, h₁⟩
    have hw : m₁'.word a = m₁.word a := by
      rw [Machine.word, Machine.word, σ.get h₁.memory hnear]
    rw [← hw]; rfl

/-! ## Writing -/

theorem simulates_write (d : Register) (w : Word) (hS : Spares σ S S' [d]) :
    Simulates (Agree σ S mems) (write d w) (write (σ.rename d) w) fun _ => Agree σ S' [] :=
  simulates_modify fun _ _ h => h.write d w hS

theorem simulates_store {o : Operand} (w : Word) (ho : ∀ r ∈ o.addressUses, S r)
    (hS : Spares σ S S' o.defined) :
    Simulates (Agree σ S o.memories) (store w o) (store w (o.mapRegisters σ.rename)) fun _ =>
      Agree σ S' [] := by
  cases o with
  | imm v => exact simulates_fail _ _
  | reg r => exact simulates_write r w hS
  | mem q =>
    intro m m' h b n e
    obtain ⟨a, m₁, e₁, e₂⟩ := EStateM.bind_eq_ok.1 e
    obtain ⟨hnear, m₁', e₁', h₁⟩ := Agree.address h ho e₁
    have e₂ : m₁.store a w = n := by cases e₂; rfl
    subst e₂
    refine ⟨m₁'.store a w, EStateM.bind_eq_ok.2 ⟨a, m₁', e₁', rfl⟩, ?_⟩
    exact h₁.store w hnear fun r hr => (hS r hr (by simp [Operand.defined, Operand.register?])).1

/-! ## Instructions -/

theorem simulates_holds (cond : String) :
    Simulates (Agree σ S mems) (holds cond) (holds cond) fun _ => Agree σ S mems := by
  intro m m' h b n e
  obtain ⟨rfl, test, hc, hb⟩ := holds_eq_ok.1 e
  exact ⟨m', holds_eq_ok.2 ⟨rfl, test, hc, by rw [h.compared]; exact hb⟩, h⟩

theorem simulates_jump (l : Label) (hS : ∀ r, S' r → S r) :
    Simulates (Agree σ S mems) (jump l) (jump l) fun _ => Agree σ S' [] := by
  intro m m' h b n e
  obtain ⟨j, hj, rfl⟩ := jump_eq_ok.1 e
  obtain ⟨j', hj', hplace⟩ := h.labels hj
  refine ⟨{ m' with position := j' }, jump_eq_ok.2 ⟨j', hj', rfl⟩, ?_⟩
  exact { h with
    position := hplace
    reads := fun hr => h.reads (hS _ hr)
    safe := trivial }

theorem simulates_combine {op : String} {dst src : Operand}
    (huses : ∀ r ∈ dst.registers ++ src.registers, S r)
    (hS : Spares σ S S' (if op = "cmp" then [] else dst.defined)) :
    Simulates (Agree σ S (Instr.binary op dst src).memories) (combine op dst src)
      (combine op (dst.mapRegisters σ.rename) (src.mapRegisters σ.rename)) fun _ =>
        Agree σ S' [] := by
  rw [Instr.memories, List.append_assoc]
  refine Simulates.bind (simulates_load fun r hr => huses r (by simp [hr])) fun left =>
    Simulates.bind (simulates_load fun r hr => huses r (by simp [hr])) fun right => ?_
  split
  · next hop =>
    rw [if_pos hop] at hS
    refine simulates_modify fun m m' h => ?_
    exact { h with compared := rfl, reads := fun hr => h.reads (hS _ hr (by simp)).1, safe := trivial }
  · next hop =>
    rw [if_neg hop] at hS
    split
    · exact simulates_fail _ _
    · refine simulates_store _ (fun r hr => huses r ?_) hS
      cases dst <;> simp_all [Operand.addressUses, Operand.registers]

theorem simulates_mapM_read {rs : List Register} (hrs : ∀ r ∈ rs, S r ∧ σ.rename r = r) :
    Simulates (Agree σ S mems) (rs.mapM read) (rs.mapM read) fun _ => Agree σ S mems := by
  induction rs with
  | nil => exact simulates_pure _ fun _ _ h => h
  | cons r rs ih =>
    rw [List.mapM_cons]
    have hr := hrs r (by simp)
    have hread : Simulates (Agree σ S mems) (read r) (read (σ.rename r)) fun _ => Agree σ S mems :=
      simulates_read hr.1
    rw [hr.2] at hread
    exact Simulates.bind hread fun w =>
      Simulates.bind (ih fun x hx => hrs x (by simp [hx])) fun ws => simulates_pure _ fun _ _ h => h

/-- The clobbers of a call become unreadable, but for its result. -/
theorem simulates_return {clobbers : List Register} (hook : Hook) (values : List Word)
    (hclob : ∀ r ∈ clobbers, σ.rename r = r)
    (hresult : σ.rename Machine.resultRegister = Machine.resultRegister)
    (hS : Spares σ S S' (Machine.resultRegister :: clobbers)) :
    Simulates (Agree σ S mems)
      (do modify (·.poison clobbers); write Machine.resultRegister (← ofFault (hook values)))
      (do modify (·.poison clobbers); write Machine.resultRegister (← ofFault (hook values)))
      fun _ => Agree σ S' [] := by
  -- between the two, the result register is not needed
  let T : Register → Prop := fun r => S' r ∧ r ≠ Machine.resultRegister
  have hT : Spares σ S T clobbers := fun r hr hmem => by
    obtain ⟨hr', hne⟩ := hS r hr.1 (by simp [hr.2, hmem])
    exact ⟨hr', fun d hd => hne d (List.mem_cons_of_mem _ hd)⟩
  refine Simulates.bind (Q := fun _ => Agree σ T [])
    (simulates_modify fun _ _ h => h.poison hclob hT) fun _ =>
    Simulates.bind (Q := fun _ => Agree σ T []) ?_ fun w => ?_
  · cases hook values with
    | error f => intro _ _ _ _ _ e; cases e
    | ok w => exact simulates_pure _ fun _ _ h => h
  · have hspare : Spares σ T S' [Machine.resultRegister] := by
      intro r hr hne
      rw [List.mem_singleton] at hne
      refine ⟨⟨hr, hne⟩, fun d hd => ?_⟩
      rw [List.mem_singleton] at hd
      subst hd
      by_cases hmem : r ∈ clobbers
      · rwa [hclob r hmem, hresult]
      · exact (hS r hr (by simp [hne, hmem])).2 _ List.mem_cons_self
    have hw : Simulates (Agree σ T []) (write Machine.resultRegister w)
        (write (σ.rename Machine.resultRegister) w) fun _ => Agree σ S' [] :=
      simulates_write Machine.resultRegister w hspare
    rwa [hresult] at hw

theorem simulates_call {l : Label} {arguments clobbers : List Register}
    (hargs : ∀ r ∈ arguments, S r ∧ σ.rename r = r) (hclob : ∀ r ∈ clobbers, σ.rename r = r)
    (hresult : σ.rename Machine.resultRegister = Machine.resultRegister)
    (hS : Spares σ S S' (Machine.resultRegister :: clobbers)) :
    Simulates (Agree σ S mems) (call l arguments clobbers) (call l arguments clobbers) fun _ =>
      Agree σ S' [] := by
  intro m m' h b n e
  obtain ⟨hook, hhook, e⟩ := call_eq_ok.1 e
  obtain ⟨n', e', hn⟩ := Simulates.bind (simulates_mapM_read hargs)
    (fun values => simulates_return hook values hclob hresult hS) h e
  exact ⟨n', call_eq_ok.2 ⟨hook, by rw [h.hooks, hhook], e'⟩, hn⟩

/-- A copy may share the place of its source. -/
theorem simulates_move {d s : Register} (hs : S s)
    (hS : ∀ r, S' r → r ≠ d → S r ∧ (σ.rename r = σ.rename d → r = s)) :
    Simulates (Agree σ S mems) (execute (.move d s)) (execute (.move (σ.rename d) (σ.rename s)))
      fun _ => Agree σ S' [] := by
  intro m m' h b n e
  obtain ⟨w, m₁, e₁, e₂⟩ := EStateM.bind_eq_ok.1 e
  obtain ⟨rfl, hw⟩ := read_eq_ok.1 e₁
  have e₂ : m.write d w = n := by cases e₂; rfl
  subst e₂
  have hw' := h.reads hs
  rw [hw] at hw'
  refine ⟨m'.write (σ.rename d) w, EStateM.bind_eq_ok.2 ⟨w, m', read_eq_ok.2 ⟨rfl, hw'.ok⟩, rfl⟩, ?_⟩
  exact { h with
    reads := fun {r} hr => by
      rw [Machine.read_write, Machine.read_write]
      by_cases hrd : r = d
      · rw [if_pos hrd, if_pos (congrArg σ.rename hrd)]; exact Passes.refl _ _
      · obtain ⟨hr', hshare⟩ := hS r hr hrd
        rw [if_neg hrd]
        by_cases hsame : σ.rename r = σ.rename d
        · rw [if_pos hsame, hshare hsame, hw]; exact Passes.refl _ _
        · rw [if_neg hsame]; exact h.reads hr'
    safe := trivial }

/-- The registers that an instruction may change: a call writes its result, listed
    or not. -/
def changes : Instr → List Register
  | .call _ _ clobbers => Machine.resultRegister :: clobbers
  | i => i.defines

/-- The registers that a call mentions, and its result, are not renamed. -/
def Steady (f : Register → Register) : Instr → Prop
  | .call _ arguments clobbers =>
    (∀ r ∈ arguments, f r = r) ∧ (∀ r ∈ clobbers, f r = r) ∧
      f Machine.resultRegister = Machine.resultRegister
  | _ => True

/-- **The second machine can follow an instruction** if the machines agree on what
    it reads, and what is needed afterwards does not share its place with what it
    changes, unless the instruction copies it there. -/
theorem simulates_execute {i : Instr} (hi : Steady σ.rename i) (huses : ∀ r ∈ i.uses, S r)
    (hS : ∀ r, S' r → r ∉ changes i → S r ∧
      ∀ d ∈ changes i, σ.rename r = σ.rename d → i.copy? = some (d, r)) :
    Simulates (Agree σ S i.memories) (execute i) (execute (i.mapRegisters σ.rename)) fun _ =>
      Agree σ S' [] := by
  have hspare : i.copy? = none → Spares σ S S' (changes i) := fun hc r hr hd =>
    ⟨(hS r hr hd).1, fun d hmem hsame => by have := (hS r hr hd).2 d hmem hsame; rw [hc] at this; cases this⟩
  have hkeep : changes i = [] → ∀ r, S' r → S r := fun hd r hr => (hS r hr (by simp [hd])).1
  cases i with
  | mov dst src =>
    by_cases hc : (Instr.mov dst src).copy? = none
    · exact Simulates.bind (simulates_load fun r hr => huses r (by simp [Instr.uses, hr]))
        fun w => simulates_store w (fun r hr => huses r (by simp [Instr.uses, hr])) (hspare hc)
    · obtain ⟨d, rfl⟩ : ∃ d, dst = .reg d := by cases dst <;> simp_all [Instr.copy?]
      obtain ⟨s, rfl⟩ : ∃ s, src = .reg s := by cases src <;> simp_all [Instr.copy?]
      refine simulates_move (huses s (by simp [Instr.uses, Operand.registers])) fun r hr hrd => ?_
      obtain ⟨hr', hshare⟩ := hS r hr (by simpa [changes, Instr.defines, Operand.defined, Operand.register?] using hrd)
      refine ⟨hr', fun hsame => ?_⟩
      have := hshare d (by simp [changes, Instr.defines, Operand.defined, Operand.register?]) hsame
      simpa [Instr.copy?, eq_comm] using this
  | binary op dst src => exact simulates_combine huses (hspare rfl)
  | clear r => exact simulates_write r 0 (hspare rfl)
  | unary op r =>
    refine Simulates.bind (simulates_read (huses r (by simp [Instr.uses]))) fun w => ?_
    cases change? op with
    | none => exact simulates_fail _ _
    | some f => exact simulates_write r (f w) (hspare rfl)
  | setcc cond r =>
    exact Simulates.bind (simulates_read (huses r (by simp [Instr.uses]))) fun w =>
      Simulates.bind (simulates_holds cond) fun b => simulates_write r _ (hspare rfl)
  | lea dst src =>
    exact Simulates.bind (simulates_address fun r hr => huses r hr) fun a =>
      simulates_write dst a (hspare rfl)
  | jmp l => exact simulates_jump l (hkeep rfl)
  | jcc cond l =>
    refine Simulates.bind (simulates_holds cond) fun b => ?_
    cases b with
    | true => exact simulates_jump l (hkeep rfl)
    | false => exact simulates_pure _ fun _ _ h => h.shrink (hkeep rfl)
  | call l arguments clobbers =>
    exact simulates_call (fun r hr => ⟨huses r hr, hi.1 r hr⟩) hi.2.1 hi.2.2 (hspare rfl)
  | ret results =>
    refine simulates_modify fun m m' h => ?_
    exact { h.shrink (hkeep rfl) with returned := rfl, safe := trivial }

end Exec

end Codegen
