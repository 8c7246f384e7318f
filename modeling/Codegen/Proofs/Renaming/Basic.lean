/-
  Renamings of virtual registers and labels.

  A renaming acts on streams and allocations.  It carries one supply to another if
  what is drawn from the first one, now or later, is renamed to what is drawn from the
  second one in the same place; two computations are renamed to each other if they both
  fail or give results that are (`Fresh.Renames`).
-/
import Codegen.Allocation
import Codegen.Proofs.Layout.Walk

namespace Codegen

/-- A renaming of virtual registers, by number, and of labels. -/
structure Renaming where
  id : Nat → Nat
  label : Label → Label

namespace Renaming

/-! ## Names in streams -/

/-- The register renamed; physical registers keep their names. -/
def register (ρ : Renaming) : Register → Register
  | .virtual k => .virtual (ρ.id k)
  | .physical p => .physical p

/-- The memory operand with its label and its register renamed. -/
def mem (ρ : Renaming) (m : Mem) : Mem := ⟨ρ.label m.label, m.base.map ρ.register, m.displacement⟩

/-- The operand renamed. -/
def operand (ρ : Renaming) : Operand → Operand
  | .reg r => .reg (ρ.register r)
  | .imm w => .imm w
  | .mem m => .mem (ρ.mem m)

/-- The instruction renamed. -/
def instr (ρ : Renaming) : Instr → Instr
  | .mov dst src => .mov (ρ.operand dst) (ρ.operand src)
  | .binary op dst src => .binary op (ρ.operand dst) (ρ.operand src)
  | .clear r => .clear (ρ.register r)
  | .unary op r => .unary op (ρ.register r)
  | .setcc cc r => .setcc cc (ρ.register r)
  | .lea dst src => .lea (ρ.register dst) (ρ.mem src)
  | .jmp l => .jmp (ρ.label l)
  | .jcc cc l => .jcc cc (ρ.label l)
  | .call l arguments clobbers =>
    .call (ρ.label l) (arguments.map ρ.register) (clobbers.map ρ.register)
  | .ret results => .ret (results.map ρ.register)

/-- The item renamed. -/
def item (ρ : Renaming) : Item → Item
  | .label l => .label (ρ.label l)
  | .instr i => .instr (ρ.instr i)
  | .stray r => .stray (ρ.register r)

/-- The stream renamed. -/
def stream (ρ : Renaming) (items : Stream) : Stream := items.map ρ.item

/-- An assigned register renamed. -/
def place (ρ : Renaming) (e : Register × Physical) : Register × Physical := (ρ.register e.1, e.2)

/-- The allocation of the renamed registers. -/
def allocation (ρ : Renaming) (a : Allocation) : Allocation :=
  ⟨a.assigned.map ρ.place, a.unassigned.map ρ.register⟩

/-- The renaming of labels alone. -/
def labels (ρ : Renaming) : Renaming := ⟨fun k => k, ρ.label⟩

/-- Different names stay different, and the absence of a label is no name. -/
structure Faithful (ρ : Renaming) : Prop where
  id : Function.Injective ρ.id
  label : Function.Injective ρ.label
  none : ρ.label Label.none = Label.none

variable {ρ σ : Renaming} {r : Register} {i : Instr} {items : Stream}

namespace Faithful

variable (h : ρ.Faithful)
include h

theorem register : Function.Injective ρ.register := by
  intro r s e
  cases r with
  | virtual k =>
    cases s with
    | virtual j => exact congrArg _ (h.id (Register.virtual.inj e))
    | physical q => cases e
  | physical p =>
    cases s with
    | virtual j => cases e
    | physical q => exact e

theorem beq_register (r s : Register) : (ρ.register r == ρ.register s) = (r == s) := by
  rw [Bool.eq_iff_iff, beq_iff_eq, beq_iff_eq]
  exact h.register.eq_iff

/-- Renamed registers are looked up as before. -/
theorem lookup_map {α β : Type} (f : α → β) (es : List (Register × α)) (r : Register) :
    (es.map fun e => (ρ.register e.1, f e.2)).lookup (ρ.register r) = (es.lookup r).map f := by
  induction es with
  | nil => rfl
  | cons e es ih =>
    obtain ⟨a, x⟩ := e
    rw [List.map_cons, List.lookup_cons, List.lookup_cons, h.beq_register, ih]
    cases r == a <;> rfl

theorem lookup_map_keys {α : Type} (es : List (Register × α)) (r : Register) :
    (es.map fun e => (ρ.register e.1, e.2)).lookup (ρ.register r) = es.lookup r := by
  rw [h.lookup_map fun x => x, Option.map_id']

theorem label_eq_none {l : Label} : ρ.label l = Label.none ↔ l = Label.none :=
  ⟨fun e => h.label (e.trans h.none.symm), fun e => e ▸ h.none⟩

end Faithful

@[simp] theorem register_physical (p : Physical) : ρ.register (.physical p) = .physical p := rfl

@[simp] theorem isPhysical_register (r : Register) : (ρ.register r).isPhysical = r.isPhysical := by
  cases r <;> rfl

@[simp] theorem physical?_register (r : Register) : (ρ.register r).physical? = r.physical? := by
  cases r <;> rfl

theorem register_eq_self (h : r.isPhysical = true) : ρ.register r = r := by
  cases r with
  | physical p => rfl
  | virtual k => cases h

/-! ## What instructions say about themselves -/

theorem registers_mem (m : Mem) : (ρ.mem m).registers = m.registers.map ρ.register := by
  cases h : m.base <;> simp [mem, Mem.registers, h]

theorem registers_operand (o : Operand) : (ρ.operand o).registers = o.registers.map ρ.register := by
  cases o <;> simp [operand, Operand.registers, registers_mem]

theorem addressUses_operand (o : Operand) :
    (ρ.operand o).addressUses = o.addressUses.map ρ.register := by
  cases o <;> simp [operand, Operand.addressUses, registers_mem]

theorem defined_operand (o : Operand) : (ρ.operand o).defined = o.defined.map ρ.register := by
  cases o <;> simp [operand, Operand.defined, Operand.register?]

theorem uses_instr (i : Instr) : (ρ.instr i).uses = i.uses.map ρ.register := by
  cases i <;> simp [instr, Instr.uses, registers_operand, addressUses_operand, registers_mem]

theorem defines_instr (i : Instr) : (ρ.instr i).defines = i.defines.map ρ.register := by
  cases i with
  | binary op dst src =>
    simp only [instr, Instr.defines]
    split
    · rfl
    · exact defined_operand dst
  | _ => simp [instr, Instr.defines, defined_operand]

theorem mentions_instr (i : Instr) : (ρ.instr i).mentions = i.mentions.map ρ.register := by
  rw [Instr.mentions, uses_instr, defines_instr, Instr.mentions, List.map_append]

theorem fallsThrough_instr (i : Instr) : (ρ.instr i).fallsThrough = i.fallsThrough := by cases i <;> rfl

theorem target?_instr (i : Instr) : (ρ.instr i).target? = i.target?.map ρ.label := by cases i <;> rfl

theorem copy?_instr (i : Instr) :
    (ρ.instr i).copy? = i.copy?.map fun (d, s) => (ρ.register d, ρ.register s) := by
  cases i with
  | mov dst src => cases dst <;> cases src <;> rfl
  | _ => rfl

theorem instr?_item (it : Item) : (ρ.item it).instr? = it.instr?.map ρ.instr := by cases it <;> rfl

theorem instructions_stream (items : Stream) :
    (ρ.stream items).instructions = items.instructions.map ρ.instr := by
  unfold Stream.instructions stream
  rw [List.filterMap_map, List.map_filterMap]
  exact List.filterMap_congr fun it _ => instr?_item it

theorem mentions_stream (items : Stream) : (ρ.stream items).mentions = items.mentions.map ρ.register := by
  unfold Stream.mentions
  rw [instructions_stream, List.flatMap_map, List.map_flatMap]
  exact congrArg (List.flatMap · _) (funext mentions_instr)

theorem stream_append (xs ys : Stream) : ρ.stream (xs ++ ys) = ρ.stream xs ++ ρ.stream ys :=
  List.map_append

theorem stream_flatten (pieces : List Stream) :
    ρ.stream pieces.flatten = (pieces.map ρ.stream).flatten := List.map_flatten

theorem stream_instr (code : List Instr) :
    ρ.stream (code.map Item.instr) = (code.map ρ.instr).map Item.instr := by
  simp [stream, item, Function.comp_def]

theorem eraseDups_map {α β : Type} [BEq α] [LawfulBEq α] [BEq β] [LawfulBEq β] {f : α → β}
    (hf : Function.Injective f) (xs : List α) : (xs.map f).eraseDups = xs.eraseDups.map f := by
  induction hn : xs.length using Nat.strongRecOn generalizing xs with
  | ind n ih =>
    cases xs with
    | nil => rfl
    | cons x xs =>
      have hfilter : (xs.map f).filter (fun b => !b == f x) = (xs.filter fun b => !b == x).map f := by
        rw [List.filter_map]
        refine congrArg (List.map f) (List.filter_congr fun y _ => ?_)
        by_cases hyx : y = x
        · simp [hyx]
        · have : f y ≠ f x := fun e => hyx (hf e)
          simp [hyx, this]
      have hlen : (xs.filter fun b => !b == x).length < n := by
        rw [← hn]
        exact Nat.lt_succ_of_le (List.length_filter_le _ _)
      rw [List.map_cons, List.eraseDups_cons, List.eraseDups_cons, List.map_cons, hfilter,
        ih _ hlen _ rfl]

theorem registers_instr (h : ρ.Faithful) (i : Instr) :
    (ρ.instr i).registers = i.registers.map ρ.register := by
  rw [Instr.registers, mentions_instr, eraseDups_map h.register, Instr.registers]

theorem registers_stream (h : ρ.Faithful) (items : Stream) :
    (ρ.stream items).registers = items.registers.map ρ.register := by
  rw [Stream.registers, mentions_stream, eraseDups_map h.register, Stream.registers]

/-! ## Composition -/

/-- One renaming after another. -/
def comp (σ ρ : Renaming) : Renaming := ⟨σ.id ∘ ρ.id, σ.label ∘ ρ.label⟩

theorem register_comp (r : Register) : (σ.comp ρ).register r = σ.register (ρ.register r) := by
  cases r <;> rfl

theorem mem_comp (m : Mem) : (σ.comp ρ).mem m = σ.mem (ρ.mem m) := by
  have : (σ.comp ρ).register = σ.register ∘ ρ.register := funext register_comp
  simp only [mem, this, Option.map_map]
  rfl

theorem operand_comp (o : Operand) : (σ.comp ρ).operand o = σ.operand (ρ.operand o) := by
  cases o <;> simp [operand, register_comp, mem_comp]

theorem instr_comp (i : Instr) : (σ.comp ρ).instr i = σ.instr (ρ.instr i) := by
  have : (σ.comp ρ).register = σ.register ∘ ρ.register := funext register_comp
  cases i <;> simp [instr, operand_comp, mem_comp, this] <;> rfl

theorem item_comp (it : Item) : (σ.comp ρ).item it = σ.item (ρ.item it) := by
  cases it with
  | label l => rfl
  | instr i => exact congrArg _ (instr_comp i)
  | stray r => exact congrArg _ (register_comp r)

theorem stream_comp (items : Stream) : (σ.comp ρ).stream items = σ.stream (ρ.stream items) := by
  simp [stream, item_comp]

theorem allocation_comp (a : Allocation) : (σ.comp ρ).allocation a = σ.allocation (ρ.allocation a) := by
  simp [allocation, place, register_comp]

/-! ## Supplies -/

/-- What is drawn from the first supply is renamed to what is drawn from the second. -/
structure Carries (ρ : Renaming) (u u' : Supply) : Prop where
  registers : ∀ k, u.registers < k → ρ.id k = k - u.registers + u'.registers
  labels : ∀ k, u.labels < k → ρ.label (.generated k) = .generated (k - u.labels + u'.labels)

/-- Results up to a renaming: both computations fail, or the second result is made from
    the first. -/
inductive Alike {α β : Type} (ρ : Renaming) (f : α → β) :
    EStateM.Result Fault Supply α → EStateM.Result Fault Supply β → Prop
  | ok (a : α) {u u' : Supply} (h : ρ.Carries u u') : Alike ρ f (.ok a u) (.ok (f a) u')
  | error {e e' : Fault} {u u' : Supply} : Alike ρ f (.error e u) (.error e' u')

end Renaming

namespace Fresh

open Renaming

variable {α β γ δ : Type} {ρ : Renaming} {f : α → β} {g : γ → δ}

/-- The second computation is the first one renamed. -/
def Renames (ρ : Renaming) (f : α → β) (x : Fresh α) (x' : Fresh β) : Prop :=
  ∀ u u', ρ.Carries u u' → Alike ρ f (x u) (x' u')

namespace Renames

theorem pure (ρ : Renaming) (f : α → β) (a : α) : Renames ρ f (Pure.pure a) (Pure.pure (f a)) :=
  fun _ _ h => .ok a h

theorem throw (ρ : Renaming) (f : α → β) (e e' : Fault) :
    Renames ρ f (MonadExcept.throw e : Fresh α) (MonadExcept.throw e') := fun _ _ _ => .error

/-- One computation after another, given what the first one may result in. -/
theorem bind_of {x : Fresh α} {x' : Fresh β} {k : α → Fresh γ} {k' : β → Fresh δ} (h : Renames ρ f x x')
    (hk : ∀ a u u₁, x u = .ok a u₁ → Renames ρ g (k a) (k' (f a))) : Renames ρ g (x >>= k) (x' >>= k') := by
  intro u u' hu
  change Alike ρ g (EStateM.bind x k u) (EStateM.bind x' k' u')
  unfold EStateM.bind
  have hx := h u u' hu
  have hk := fun a u₁ => hk a u u₁
  generalize x u = out, x' u' = out' at hx hk
  cases hx with
  | ok a h => exact hk a _ rfl _ _ h
  | error => exact .error

theorem bind {x : Fresh α} {x' : Fresh β} {k : α → Fresh γ} {k' : β → Fresh δ} (h : Renames ρ f x x')
    (hk : ∀ a, Renames ρ g (k a) (k' (f a))) : Renames ρ g (x >>= k) (x' >>= k') :=
  h.bind_of fun a _ _ _ => hk a

/-- A computation that draws nothing and depends on nothing that is renamed. -/
theorem ofExcept (ρ : Renaming) (x : Except Fault α) : Renames ρ (fun a => a) (ofExcept x) (ofExcept x) := by
  cases x with
  | ok a => exact .pure ρ _ a
  | error e => exact .throw ρ _ e e

theorem mapM {xs : List γ} {k : γ → Fresh α} {k' : γ → Fresh β}
    (h : ∀ x ∈ xs, Renames ρ f (k x) (k' x)) : Renames ρ (List.map f) (xs.mapM k) (xs.mapM k') := by
  induction xs with
  | nil => exact .pure ρ (List.map f) []
  | cons x xs ih =>
    rw [List.mapM_cons, List.mapM_cons]
    refine (h x List.mem_cons_self).bind fun a => ?_
    exact (ih fun y hy => h y (List.mem_cons_of_mem _ hy)).bind fun as => .pure ρ (List.map f) (a :: as)

theorem register (ρ : Renaming) : Renames ρ ρ.register Fresh.register Fresh.register := by
  intro u u' hu
  have hdrawn : Register.virtual (u'.registers + 1) = ρ.register (.virtual (u.registers + 1)) := by
    change _ = Register.virtual _
    rw [hu.registers _ (Nat.lt_succ_self _)]
    congr 1
    omega
  change Alike ρ ρ.register (.ok _ { u with registers := u.registers + 1 })
    (.ok (.virtual (u'.registers + 1)) { u' with registers := u'.registers + 1 })
  rw [hdrawn]
  refine .ok _ ⟨fun k hk => ?_, hu.labels⟩
  have hk : u.registers + 1 < k := hk
  rw [hu.registers k (by omega)]
  change k - u.registers + u'.registers = k - (u.registers + 1) + (u'.registers + 1)
  omega

theorem label (ρ : Renaming) : Renames ρ ρ.label Fresh.label Fresh.label := by
  intro u u' hu
  have hdrawn : Label.generated (u'.labels + 1) = ρ.label (.generated (u.labels + 1)) := by
    rw [hu.labels _ (Nat.lt_succ_self _)]
    congr 1
    omega
  change Alike ρ ρ.label (.ok _ { u with labels := u.labels + 1 })
    (.ok (.generated (u'.labels + 1)) { u' with labels := u'.labels + 1 })
  rw [hdrawn]
  refine .ok _ ⟨hu.registers, fun k hk => ?_⟩
  have hk : u.labels + 1 < k := hk
  rw [hu.labels k (by omega)]
  change Label.generated (k - u.labels + u'.labels) = .generated (k - (u.labels + 1) + (u'.labels + 1))
  congr 1
  omega

end Renames

end Fresh

end Codegen
