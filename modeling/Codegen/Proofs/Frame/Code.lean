/-
  Frame code.

  * The size of a frame is a multiple of sixteen bytes, and its slots fit into it
    (`toInt_size`, `slot_within`).
  * The operations that set a frame up and tear it down are covered by code over
    physical registers, which draws nothing (`cover_prologue`, `cover_epilogue`).
  * What that code does to the stack and the frame pointer: `Runs.enter` and
    `Runs.leave`.
-/
import Codegen.Proofs.Frame.Body
import Codegen.Proofs.Spill.Slots

namespace Codegen

/-! ## Sizes and slots -/

namespace Frame

variable {f : Frame} {k : Nat}

theorem toInt_bytes (h : f.slots < 576460752303423488) : (Int64.ofNat f.slots * wordSize).toInt = 8 * f.slots := by
  have hslots : (Int64.ofNat f.slots).toInt = f.slots := Int64.toInt_ofNat_of_lt (by omega)
  rw [Int64.toInt_mul, hslots, show wordSize.toInt = 8 from rfl, Int.bmod_def]
  split <;> omega

/-- The slots take eight bytes each, in pairs. -/
theorem toInt_size_of_lt (h : f.slots < 576460752303423488) : f.size.toInt = 16 * ((f.slots + 1) / 2 : Nat) := by
  have hbytes := toInt_bytes h
  have hrest : ((Int64.ofNat f.slots * wordSize) % stackAlignment).toInt = (8 * f.slots : Int) % 16 := by
    rw [Int64.toInt_mod, hbytes, show stackAlignment.toInt = 16 from rfl]
    exact Int.tmod_eq_emod_of_nonneg (by omega)
  unfold size
  simp only
  split
  · next hzero =>
    rw [hzero] at hrest
    rw [hbytes]
    have : (0 : Int64).toInt = 0 := rfl
    omega
  · next hne =>
    have hne : (8 * f.slots : Int) % 16 ≠ 0 := fun e => hne (Int64.toInt_inj.1 (hrest.trans e))
    rw [Int64.toInt_add, Int64.toInt_sub, hbytes, hrest, show stackAlignment.toInt = 16 from rfl,
      Int.bmod_def, Int.bmod_def]
    split <;> split <;> omega

theorem toInt_size (h : f.slots < 268435456) : f.size.toInt = 16 * ((f.slots + 1) / 2 : Nat) :=
  toInt_size_of_lt (by omega)

theorem fits32_size (h : f.slots < 268435400) : f.size.fits32 = true := by
  have := toInt_size (f := f) (by omega)
  rw [Word.fits32_iff]
  omega

/-- A frame of no size has no slots. -/
theorem size_eq_zero (h : f.slots < 268435456) (hsize : ¬ 0 < f.size) : f.size = 0 := by
  have hsize' := toInt_size h
  rw [Int64.lt_iff_toInt_lt] at hsize
  refine Int64.toInt_inj.1 ?_
  have : (0 : Int64).toInt = 0 := rfl
  omega

theorem toInt_offset_slot (h : k < 268435456) : (f.slot k).offset.toInt = -(8 * k) := by
  obtain ⟨q, hq⟩ := f.offset_slot k
  have hlo := (f.slot k).offset.le_toInt
  have hhi := (f.slot k).offset.toInt_lt
  omega

/-- **The words of the slots lie in the frame**, if addresses do not wrap. -/
theorem slot_within {x : Word} (hf : f.slots < 268435456) (hk : 1 ≤ k) (hle : k ≤ f.slots)
    (hwrap : -9223372036854775808 ≤ x.toInt - 8 - f.size.toInt) :
    (x - 8 - f.size).toInt ≤ (x - 8 + (f.slot k).offset).toInt ∧
      (x - 8 + (f.slot k).offset).toInt + 8 ≤ (x - 8).toInt := by
  have hsize := toInt_size hf
  have hoffset := toInt_offset_slot (f := f) (k := k) (by omega)
  have hhi := x.toInt_lt
  have h8 : (x - 8).toInt = x.toInt - 8 := by
    rw [Int64.toInt_sub, show (8 : Int64).toInt = 8 from rfl, Int.bmod_def]
    split <;> omega
  rw [Int64.toInt_sub, Int64.toInt_add, h8, hoffset, Int.bmod_def, Int.bmod_def]
  split <;> split <;> omega

end Frame

/-! ## Code -/

namespace Catalogue

variable {c : Catalogue} {xs ys : List Stmt} {u u₁ u₂ : Supply} {code code' : List Instr}

theorem coverStmts_append (hx : c.coverStmts xs u = .ok code u₁) (hy : c.coverStmts ys u₁ = .ok code' u₂) :
    c.coverStmts (xs ++ ys) u = .ok (code ++ code') u₂ := by
  obtain ⟨cs, v, hxs, hx⟩ := EStateM.bind_eq_ok.1 hx
  obtain ⟨cs', v', hys, hy⟩ := EStateM.bind_eq_ok.1 hy
  cases hx
  cases hy
  refine EStateM.bind_eq_ok.2 ⟨cs ++ cs', _, ?_, by rw [List.flatten_append]; rfl⟩
  rw [List.mapM_append]
  exact EStateM.bind_eq_ok.2 ⟨cs, _, hxs, EStateM.bind_eq_ok.2 ⟨cs', _, hys, rfl⟩⟩

theorem coverStmts_map {α : Type} {op : α → Stmt} {instr : α → Instr} {as : List α}
    (h : ∀ a ∈ as, c.coverStmts [op a] u = .ok [instr a] u) :
    c.coverStmts (as.map op) u = .ok (as.map instr) u := by
  induction as with
  | nil => rfl
  | cons a as ih =>
    change c.coverStmts ([op a] ++ as.map op) u = .ok ([instr a] ++ as.map instr) u
    exact coverStmts_append (h a List.mem_cons_self) (ih fun a' ha' => h a' (List.mem_cons_of_mem _ ha'))

end Catalogue

open Amd64

/-- Adding a constant to a register, or subtracting it, is one instruction. -/
theorem cover_update {op : BinaryOp} {opcode : String} {w : Word} (r : Register)
    (hop : op = .add ∧ opcode = "add" ∨ op = .sub ∧ opcode = "sub") (hw : w.fits32 = true) (u : Supply) :
    catalogue.coverStmts [.write r (.binary op (.read r) (.const w))] u =
      .ok [.binary opcode (.reg r) (.imm w)] u := by
  have hmem : op ∈ [BinaryOp.add, .sub, .and, .or, .xor] := by rcases hop with ⟨rfl, -⟩ | ⟨rfl, -⟩ <;> decide
  have hdeclared : op ∈ BinaryOp.declared := by rcases hop with ⟨rfl, -⟩ | ⟨rfl, -⟩ <;> decide
  obtain ⟨t, ht⟩ := exists_tile (.write r (.binary op (.read r) (.const w)))
    (by simp [Stmt.values, Value.Declared, hdeclared])
  obtain ⟨hrule, hfound, hcover⟩ := Tile.covers_iff.1 (Catalogue.covers_of_tile? ht)
  have hupdate : ∃ m, writeUpdate.pattern.apply (.write r (.binary op (.read r) (.const w))) = some m ∧
      m.leaves = [] :=
    ⟨_, Pattern.matchFrom_write.2 ⟨r, _, rfl, rfl, Pattern.matchFrom_binary.2 ⟨op, _, _, rfl, by
      rcases hop with ⟨rfl, -⟩ | ⟨rfl, -⟩ <;> rfl, _, Pattern.matchFrom_read.2 ⟨r, rfl, by simp [Test.written], rfl⟩,
      Pattern.matchFrom_const.2 ⟨w, rfl, hw, rfl⟩⟩⟩, rfl⟩
  obtain ⟨m, hm, hnil⟩ := hupdate
  have hleaves : t.leaves = [] := Catalogue.leaves_eq_nil patterns_ne_wild
    (by simp [Stmt.size, Value.size]) rfl (by simp [catalogue]) hm hnil ht
  have hgen : t.rule.generate { inputs := [], found := t.found } u =
      .ok ([.binary opcode (.reg r) (.imm w)], none) u := by
    have hmatch := (matches_of_apply hrule hfound).writeMatches
    generalize t.rule = rule at hmatch ⊢
    generalize t.found = found at hmatch hcover ⊢
    cases hmatch with
    | update => rcases hop with ⟨rfl, rfl⟩ | ⟨rfl, rfl⟩ <;> rfl
    | any => rw [hleaves] at hcover; exact hcover.elim
  have hemit : Tile.emitLeaves t.rule.name t.leaves u = .ok ([], []) u := by rw [hleaves]; rfl
  have hone := Catalogue.coverStmt_eq_ok ht (Tile.emit_eq_ok hemit hgen)
  refine EStateM.bind_eq_ok.2 ⟨[[.binary opcode (.reg r) (.imm w)]], u, ?_, rfl⟩
  rw [List.mapM_cons]
  exact EStateM.bind_eq_ok.2 ⟨_, _, hone, rfl⟩

/-- An access of a slot within reach is one instruction. -/
theorem cover_reach {s : Slot} {a : Access} (hnarrow : a.Narrow s) {u : Supply} (ha : a.Known u.registers) :
    catalogue.coverStmts [a.op s] u = .ok [a.instr s] u := by
  obtain ⟨code, u', hcode, -, h⟩ := Access.cover_access s ha
  obtain ⟨-, rfl, rfl⟩ := h.resolve_right fun h => h.1 hnarrow
  exact hcode

namespace Frame

variable {f : Frame} {saved : List Saved}

/-- The stack pointer goes down. -/
def lower (w : Word) : Instr := .binary "sub" (.reg (.physical .rsp)) (.imm w)

/-- The word that the stack pointer points to. -/
def top : Operand := .mem (.ofRegister (.physical .rsp))

/-- The code that sets a frame up. -/
def enterCode (f : Frame) (saved : List Saved) : List Instr :=
  [lower 8, .mov top (.reg (.physical .rbp)), .move (.physical .rbp) (.physical .rsp)] ++
    (if 0 < f.size then [lower f.size] else []) ++
    saved.map fun s => (Access.store s.register).instr s.slot

/-- The code that tears a frame down. -/
def leaveCode (saved : List Saved) : List Instr :=
  (saved.map fun s => (Access.load s.register).instr s.slot) ++
    [.move (.physical .rsp) (.physical .rbp), .mov (.reg (.physical .rbp)) top,
      .binary "add" (.reg (.physical .rsp)) (.imm 8)]

section
variable (hconv : f.convention = Amd64.convention)
  (hreach : ∀ s ∈ saved, s.slot.reach.fits32 = true)
include hconv hreach

theorem cover_prologue (hsize : f.size.fits32 = true) (u : Supply) :
    catalogue.coverStmts (f.prologue saved) u = .ok (f.enterCode saved) u := by
  have hsub : ∀ w : Word, w.fits32 = true →
      catalogue.coverStmts [.write (.physical .rsp) (.binary .sub (.read (.physical .rsp)) (.const w))] u =
        .ok [lower w] u := fun w hw => cover_update _ (Or.inr ⟨rfl, rfl⟩) hw u
  have hstores : catalogue.coverStmts (saved.map fun s => (Access.store s.register).op s.slot) u =
      .ok (saved.map fun s => (Access.store s.register).instr s.slot) u :=
    Catalogue.coverStmts_map fun s hs =>
      cover_reach (a := .store s.register) (hreach s hs) (Register.known_physical _ _)
  have hmoves : catalogue.coverStmts [.store (.read (.physical .rsp)) (.read (.physical .rbp)),
      .write (.physical .rbp) (.read (.physical .rsp))] u =
        .ok [.mov top (.reg (.physical .rbp)), .move (.physical .rbp) (.physical .rsp)] u := rfl
  have hlower : catalogue.coverStmts (if 0 < f.size then
      [.write (.physical .rsp) (.binary .sub (.read (.physical .rsp)) (.const f.size))] else []) u =
        .ok (if 0 < f.size then [lower f.size] else []) u := by
    split
    · exact hsub f.size hsize
    · rfl
  unfold prologue enterCode
  simp only [hconv]
  exact Catalogue.coverStmts_append (Catalogue.coverStmts_append
    (Catalogue.coverStmts_append (hsub 8 (by decide)) hmoves) hlower) hstores

theorem cover_epilogue (u : Supply) :
    catalogue.coverStmts (f.epilogue saved) u = .ok (leaveCode saved) u := by
  have hloads : catalogue.coverStmts (saved.map fun s => (Access.load s.register).op s.slot) u =
      .ok (saved.map fun s => (Access.load s.register).instr s.slot) u :=
    Catalogue.coverStmts_map fun s hs => cover_reach (a := .load s.register) (hreach s hs) trivial
  have hadd : catalogue.coverStmts
      [.write (.physical .rsp) (.binary .add (.read (.physical .rsp)) (.const 8))] u =
        .ok [.binary "add" (.reg (.physical .rsp)) (.imm 8)] u :=
    cover_update _ (Or.inl ⟨rfl, rfl⟩) (by decide) u
  have hmoves : catalogue.coverStmts [.write (.physical .rsp) (.read (.physical .rbp)),
      .write (.physical .rbp) (.load (.read (.physical .rsp)))] u =
        .ok [.move (.physical .rsp) (.physical .rbp), .mov (.reg (.physical .rbp)) top] u := rfl
  unfold epilogue leaveCode
  simp only [hconv]
  exact Catalogue.coverStmts_append hloads (Catalogue.coverStmts_append hmoves hadd)

end

/-- What is saved lives in slots below the frame pointer. -/
structure Saves (saved : List Saved) : Prop where
  slots : ∀ s ∈ saved, s.slot.framePointer = .rbp ∧ s.slot.offset ≠ 0
  registers : ∀ s ∈ saved, s.register ≠ .rsp ∧ s.register ≠ .rbp

theorem Saves.tail {s : Saved} (h : Saves (s :: saved)) : Saves saved :=
  ⟨fun s' hs' => h.slots s' (List.mem_cons_of_mem _ hs'), fun s' hs' =>
    h.registers s' (List.mem_cons_of_mem _ hs')⟩

theorem straight_mov (dst src : Operand) : (Instr.mov dst src).Straight := ⟨rfl, rfl⟩

theorem straight_enterCode (f : Frame) (saved : List Saved) : ∀ i ∈ f.enterCode saved, i.Straight := by
  intro i hi
  simp only [enterCode, List.mem_append, List.mem_cons, List.not_mem_nil, or_false, List.mem_map] at hi
  rcases hi with ((rfl | rfl | rfl) | hi) | ⟨s, -, rfl⟩
  · exact ⟨rfl, rfl⟩
  · exact straight_mov _ _
  · exact straight_mov _ _
  · split at hi
    · rw [List.mem_singleton.1 hi]
      exact ⟨rfl, rfl⟩
    · cases hi
  · exact straight_mov _ _

theorem straight_leaveCode (saved : List Saved) : ∀ i ∈ leaveCode saved, i.Straight := by
  intro i hi
  simp only [leaveCode, List.mem_append, List.mem_cons, List.not_mem_nil, or_false, List.mem_map] at hi
  rcases hi with ⟨s, -, rfl⟩ | rfl | rfl | rfl
  · exact straight_mov _ _
  · exact straight_mov _ _
  · exact straight_mov _ _
  · exact ⟨rfl, rfl⟩

/-- **Frame code is about physical registers.** -/
theorem physical_enterCode {i : Instr} (hi : i ∈ f.enterCode saved) {r : Register} (hr : r ∈ i.mentions) :
    r.isPhysical = true := by
  simp only [enterCode, List.mem_append, List.mem_cons, List.not_mem_nil, or_false, List.mem_map] at hi
  have hlower : ∀ w, ∀ r ∈ (lower w).mentions, r.isPhysical = true := fun w r hr => by
    have : r = .physical .rsp := by simpa [lower, Instr.mentions, Instr.uses, Instr.defines,
      Operand.registers, Operand.defined, Operand.register?] using hr
    rw [this]; rfl
  rcases hi with ((rfl | rfl | rfl) | hi) | ⟨s, -, rfl⟩
  · exact hlower _ r hr
  · exact (by decide : ∀ r ∈ (Instr.mov top (.reg (.physical .rbp))).mentions, r.isPhysical = true) r hr
  · exact (by decide : ∀ r ∈ (Instr.move (.physical .rbp) (.physical .rsp)).mentions,
      r.isPhysical = true) r hr
  · split at hi
    · rw [List.mem_singleton.1 hi] at hr
      exact hlower _ r hr
    · cases hi
  · rcases Access.mem_mentions_instr hr with rfl | hr
    · rfl
    · rw [List.mem_singleton.1 hr]; rfl

theorem physical_leaveCode {i : Instr} (hi : i ∈ leaveCode saved) {r : Register} (hr : r ∈ i.mentions) :
    r.isPhysical = true := by
  rcases List.mem_append.1 hi with hi | hi
  · obtain ⟨s, -, rfl⟩ := List.mem_map.1 hi
    rcases Access.mem_mentions_instr hr with rfl | hr
    · rfl
    · rw [List.mem_singleton.1 hr]; rfl
  · exact (by decide : ∀ i ∈ [Instr.move (.physical .rsp) (.physical .rbp), .mov (.reg (.physical .rbp)) top,
      .binary "add" (.reg (.physical .rsp)) (.imm 8)], ∀ r ∈ i.mentions, r.isPhysical = true) i hi r hr

end Frame

/-! ## What frame code does -/

namespace Machine

variable {near : Word → Prop} {m n : Machine} {code code' : List Instr} {size x b : Word} {f : Frame}
  {saved : List Saved} {s : Saved}

theorem word_store (m : Machine) (a a' w : Word) :
    (m.store a w).word a' = if a' = a then w else m.word a' := by
  unfold word store
  split
  · next e => rw [e, Bindings.get?_set_self]; rfl
  · next e => rw [Bindings.get?_set_ne _ _ e]

@[simp] theorem read_tick (m : Machine) (r : Register) : m.tick.read r = m.read r := rfl

@[simp] theorem word_tick (m : Machine) (a : Word) : m.tick.word a = m.word a := rfl

@[simp] theorem read_store (m : Machine) (a w : Word) (r : Register) : (m.store a w).read r = m.read r := rfl

@[simp] theorem word_write (m : Machine) (r : Register) (w a : Word) : (m.write r w).word a = m.word a := rfl

theorem Runs.of_append (h : Runs near (code ++ code') m n) :
    ∃ m₁, Runs near code m m₁ ∧ Runs near code' m₁ n := by
  induction code generalizing m with
  | nil => exact ⟨m, .nil m, h⟩
  | cons i code ih =>
    cases h with
    | cons hi hsafe e h =>
      obtain ⟨m₁, h₁, h₂⟩ := ih h
      exact ⟨m₁, .cons hi hsafe e h₁, h₂⟩

theorem Runs.of_cons {i : Instr} (h : Runs near (i :: code) m n) :
    ∃ m₁, Runs near [i] m m₁ ∧ Runs near code m₁ n := by
  cases h with
  | cons hi hsafe e h => exact ⟨_, .single hi hsafe e, h⟩

theorem Runs.execute {i : Instr} (h : Runs near [i] m n) : Exec.execute i m.tick = .ok () n := by
  cases h with
  | cons _ _ e h => cases h; exact e

/-- The frame is set up, for an entry with the stack pointer at `x`: below it, the word
    that the frame pointer points to holds the caller's. -/
structure Framed (size x b : Word) (m : Machine) : Prop where
  stack : m.read (.physical .rsp) = .ok (x - 8 - size)
  frame : m.read (.physical .rbp) = .ok (x - 8)
  caller : m.word (x - 8) = b

theorem Framed.of_eq (h : m.Framed size x b) (hstack : n.read (.physical .rsp) = m.read (.physical .rsp))
    (hframe : n.read (.physical .rbp) = m.read (.physical .rbp)) (hword : n.word (x - 8) = m.word (x - 8)) :
    n.Framed size x b := ⟨hstack.trans h.stack, hframe.trans h.frame, hword.trans h.caller⟩

theorem Framed.denotes (h : m.Framed size x b) (hs : s.slot.framePointer = .rbp) :
    m.tick.Denotes s.slot.operand (x - 8 + s.slot.offset) := by
  unfold Slot.operand
  rw [hs]
  exact denotes_base _ h.frame

theorem Framed.execute_store (hm : m.Framed size x b) (hs : s.slot.framePointer = .rbp)
    (e : Exec.execute ((Access.store s.register).instr s.slot) m.tick = .ok () n) :
    ∃ w, m.read s.register = .ok w ∧ n = m.tick.store (x - 8 + s.slot.offset) w := by
  obtain ⟨w, m₁, hload, -⟩ := EStateM.bind_eq_ok.1 e
  obtain ⟨rfl, hread⟩ := Exec.read_eq_ok.1 hload
  have e' := Exec.execute_mov_mem (Exec.load_reg hread) (hm.denotes hs)
  rw [show Exec.execute ((Access.store s.register).instr s.slot) m.tick = _ from e'] at e
  cases e
  exact ⟨w, hread, rfl⟩

theorem Framed.execute_load (hm : m.Framed size x b) (hs : s.slot.framePointer = .rbp)
    (e : Exec.execute ((Access.load s.register).instr s.slot) m.tick = .ok () n) :
    n = m.tick.write s.register (m.word (x - 8 + s.slot.offset)) := by
  have e' := Exec.execute_mov_reg (d := s.register) (Exec.load_mem (hm.denotes hs))
  rw [show Exec.execute ((Access.load s.register).instr s.slot) m.tick = _ from e'] at e
  cases e
  rfl

/-- Registers can be saved in a frame. -/
theorem Framed.stores (hm : m.Framed size x b) (hsaves : Frame.Saves saved)
    (h : Runs near (saved.map fun s => (Access.store s.register).instr s.slot) m n) : n.Framed size x b := by
  induction saved generalizing m with
  | nil => cases h; exact hm
  | cons s saved ih =>
    cases h with
    | @cons _ _ _ m₂ _ _ _ e h =>
      obtain ⟨hfp, hoffset⟩ := hsaves.slots s List.mem_cons_self
      obtain ⟨w, -, rfl⟩ := hm.execute_store hfp e
      refine ih (m := m.tick.store (x - 8 + s.slot.offset) w) (hm.of_eq rfl rfl ?_) hsaves.tail h
      rw [word_store, if_neg fun e => hoffset (by simpa using e), word_tick]

/-- Registers can be restored in a frame. -/
theorem Framed.loads (hm : m.Framed size x b) (hsaves : Frame.Saves saved)
    (h : Runs near (saved.map fun s => (Access.load s.register).instr s.slot) m n) : n.Framed size x b := by
  induction saved generalizing m with
  | nil => cases h; exact hm
  | cons s saved ih =>
    cases h with
    | @cons _ _ _ m₂ _ _ _ e h =>
      obtain ⟨hfp, -⟩ := hsaves.slots s List.mem_cons_self
      obtain ⟨hrsp, hrbp⟩ := hsaves.registers s List.mem_cons_self
      obtain rfl := hm.execute_load hfp e
      refine ih (m := m.tick.write s.register _) (hm.of_eq ?_ ?_ rfl) hsaves.tail h
      · rw [read_write, if_neg fun e => hrsp (Register.physical.inj e).symm, read_tick]
      · rw [read_write, if_neg fun e => hrbp (Register.physical.inj e).symm, read_tick]

/-- The stack pointer goes down. -/
theorem Runs.lower {w : Word} (h : Runs near [Frame.lower w] m n) (hx : m.read (.physical .rsp) = .ok x) :
    n = m.tick.write (.physical .rsp) (x - w) := by
  have e := h.execute
  rw [Frame.lower, Exec.execute_binary (m := m.tick) hx Exec.load_imm (by decide) rfl] at e
  cases e
  rfl

theorem denotes_top (hx : m.read (.physical .rsp) = .ok x) :
    m.Denotes (.ofRegister (.physical .rsp)) x := by
  have h := denotes_base 0 hx
  rwa [show x + 0 = x by simp] at h

/-- **Setting a frame up.** -/
theorem Runs.enter (h : Runs near (f.enterCode saved) m n) (hsaves : Frame.Saves saved)
    (hsize : ¬ 0 < f.size → f.size = 0) (hx : m.read (.physical .rsp) = .ok x) :
    ∃ b, m.read (.physical .rbp) = .ok b ∧ n.Framed f.size x b := by
  obtain ⟨m₄, h, hstores⟩ := h.of_append
  obtain ⟨m₃, h, hlower⟩ := h.of_append
  obtain ⟨m₁, hfirst, h⟩ := h.of_cons
  obtain ⟨m₂, hpush, hmove⟩ := h.of_cons
  have hm₁ := hfirst.lower hx
  have hsp₁ : m₁.read (.physical .rsp) = .ok (x - 8) := by rw [hm₁, read_write, if_pos rfl]
  -- the caller's frame pointer is pushed
  obtain ⟨b, m₀, hload, -⟩ := EStateM.bind_eq_ok.1 hpush.execute
  obtain ⟨rfl, hb⟩ := Exec.read_eq_ok.1 hload
  have hm₂ := (Exec.execute_mov_mem (Exec.load_reg hb) (denotes_top hsp₁)).symm.trans hpush.execute
  have hm₂ : m₂ = m₁.tick.store (x - 8) b := by cases hm₂; rfl
  have hsp₂ : m₂.read (.physical .rsp) = .ok (x - 8) := by rw [hm₂, read_store, read_tick, hsp₁]
  -- the frame pointer takes the place of the stack pointer
  have hm₃ := (Exec.execute_mov_reg (d := .physical .rbp) (Exec.load_reg (m := m₂.tick) hsp₂)).symm.trans
    hmove.execute
  have hm₃ : m₃ = m₂.tick.write (.physical .rbp) (x - 8) := by cases hm₃; rfl
  have hsp₃ : m₃.read (.physical .rsp) = .ok (x - 8) := by
    rw [hm₃, read_write, if_neg (by decide), read_tick, hsp₂]
  have hframe : m₃.read (.physical .rbp) = .ok (x - 8) := by rw [hm₃, read_write, if_pos rfl]
  have hcaller : m₃.word (x - 8) = b := by rw [hm₃, word_write, word_tick, hm₂, word_store, if_pos rfl]
  refine ⟨b, ?_, Framed.stores ?_ hsaves hstores⟩
  · rw [← hb, hm₁, read_tick, read_write, if_neg (by decide), read_tick]
  · split at hlower
    · obtain rfl := hlower.lower hsp₃
      refine ⟨by rw [read_write, if_pos rfl], ?_, hcaller⟩
      rw [read_write, if_neg (by decide), read_tick, hframe]
    · next hzero =>
      cases hlower
      rw [hsize hzero]
      exact ⟨by rw [hsp₃, Int64.sub_zero], hframe, hcaller⟩

/-- **Tearing a frame down.** -/
theorem Runs.leave (h : Runs near (Frame.leaveCode saved) m n) (hsaves : Frame.Saves saved)
    (hm : m.Framed size x b) :
    n.read (.physical .rsp) = .ok x ∧ n.read (.physical .rbp) = .ok b := by
  obtain ⟨m₁, hloads, h⟩ := h.of_append
  have hm₁ := hm.loads hsaves hloads
  obtain ⟨m₂, hmove, h⟩ := h.of_cons
  obtain ⟨m₃, hpop, hadd⟩ := h.of_cons
  have hm₂ := (Exec.execute_mov_reg (d := .physical .rsp) (Exec.load_reg (m := m₁.tick) hm₁.frame)).symm.trans
    hmove.execute
  have hm₂ : m₂ = m₁.tick.write (.physical .rsp) (x - 8) := by cases hm₂; rfl
  have hsp₂ : m₂.read (.physical .rsp) = .ok (x - 8) := by rw [hm₂, read_write, if_pos rfl]
  have hcaller : m₂.word (x - 8) = b := by rw [hm₂, word_write, word_tick, hm₁.caller]
  have hm₃ := (Exec.execute_mov_reg (d := .physical .rbp)
    (Exec.load_mem (m := m₂.tick) (denotes_top hsp₂))).symm.trans hpop.execute
  have hm₃ : m₃ = m₂.tick.write (.physical .rbp) b := by
    rw [word_tick, hcaller] at hm₃
    cases hm₃
    rfl
  have hsp₃ : m₃.read (.physical .rsp) = .ok (x - 8) := by
    rw [hm₃, read_write, if_neg (by decide), read_tick, hsp₂]
  have hn : Exec.execute (.binary "add" (.reg (.physical .rsp)) (.imm 8)) m₃.tick = _ :=
    Exec.execute_binary (m := m₃.tick) hsp₃ Exec.load_imm (by decide) rfl
  rw [hadd.execute] at hn
  have hn : n = m₃.tick.write (.physical .rsp) (x - 8 + 8) := by cases hn; rfl
  refine ⟨by rw [hn, read_write, if_pos rfl, Int64.sub_add_cancel], ?_⟩
  rw [hn, read_write, if_neg (by decide), read_tick, hm₃, read_write, if_pos rfl]

end Machine

end Codegen
