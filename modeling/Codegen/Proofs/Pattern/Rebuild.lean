/-
  What a match keeps of the operation.

  `rebuild` puts an operation together again: it replaces the wildcards of a pattern by the
  values that were left open, in visiting order, and the parts that capture a value by what is
  looked up for them.  It gives the operation that the pattern visits with these values, if
  there is one (`rebuild_eq_some_iff`).

  Numbered parts have places of their own, so what they captured is found again.  The label
  parts of a pattern share one place, and so do its call parts: of several values captured
  there, only the last one is kept.  A match thus loses something exactly if two label parts
  meet different labels or two call parts different calls (`apply_faithful`).
-/
import Codegen.Proofs.Pattern.Visits
import Codegen.Proofs.Outcomes

namespace Codegen

/-! ## Looking up captures -/

namespace Match

variable {m : Match} {p : Pattern} {kind : CaptureKind}

theorem find_eq_ok_iff {α : Type} {pick : Capture → Option α} {a : α} :
    m.find p kind pick = .ok a ↔ ∃ c, p.part?.bind m.get? = some c ∧ pick c = some a := by
  unfold find
  split
  · next h => simp [h]
  · next c h =>
    rw [h]
    split
    · next b hb => simp [hb]
    · next hb => simp [hb]

theorem value_eq_ok_iff {c : Capture} :
    m.value p kind = .ok c ↔ p.part?.bind m.get? = some c ∧ c.kind = kind := by
  rw [value, find_eq_ok_iff]
  constructor
  · rintro ⟨c', hc', h⟩
    split at h
    · next hkind => cases h; exact ⟨hc', hkind⟩
    · cases h
  · rintro ⟨hc, hkind⟩
    exact ⟨c, hc, if_pos hkind⟩

/-- Looking up a value of one kind. -/
theorem find_eq_ok_iff_of_pick {α : Type} {pick : Capture → Option α} {c : Capture} {a : α}
    (hpick : ∀ c', pick c' = some a ↔ c' = c) :
    m.find p kind pick = .ok a ↔ p.part?.bind m.get? = some c := by
  simp [find_eq_ok_iff, hpick]

theorem word_eq_ok_iff {w : Word} : m.word p = .ok w ↔ p.part?.bind m.get? = some (.word w) :=
  find_eq_ok_iff_of_pick fun c => by cases c <;> simp

theorem register_eq_ok_iff {r : Register} :
    m.register p = .ok r ↔ p.part?.bind m.get? = some (.register r) :=
  find_eq_ok_iff_of_pick fun c => by cases c <;> simp

theorem binaryOp_eq_ok_iff {op : BinaryOp} :
    m.binaryOp p = .ok op ↔ p.part?.bind m.get? = some (.binaryOp op) :=
  find_eq_ok_iff_of_pick fun c => by cases c <;> simp

theorem unaryOp_eq_ok_iff {op : UnaryOp} :
    m.unaryOp p = .ok op ↔ p.part?.bind m.get? = some (.unaryOp op) :=
  find_eq_ok_iff_of_pick fun c => by cases c <;> simp

theorem label_eq_ok_iff {l : Label} : m.label p = .ok l ↔ p.part?.bind m.get? = some (.label l) :=
  find_eq_ok_iff_of_pick fun c => by cases c <;> simp

theorem call_eq_ok_iff {e : Label × Int} :
    m.call p = .ok e ↔ p.part?.bind m.get? = some (.call e.1 e.2) :=
  find_eq_ok_iff_of_pick fun c => by cases c <;> simp [Prod.ext_iff]

theorem ret_eq_ok_iff {b : Bool} : m.ret p = .ok b ↔ p.part?.bind m.get? = some (.ret b) :=
  find_eq_ok_iff_of_pick fun c => by cases c <;> simp

end Match

namespace Part

/-- The number of a place that has one. -/
def number? : Part → Option Nat
  | own k => some k
  | label | call | ret => none

/-- The kind of value that is captured at a place without a number. -/
def kind? : Part → Option CaptureKind
  | own _ => none
  | label => some .label
  | call => some .call
  | ret => some .ret

end Part

namespace Capture

theorem exists_label {c : Capture} (h : c.kind = .label) : ∃ l, c = .label l := by
  cases c with
  | label l => exact ⟨l, rfl⟩
  | _ => cases h

theorem exists_call {c : Capture} (h : c.kind = .call) : ∃ f n, c = .call f n := by
  cases c with
  | call f n => exact ⟨f, n, rfl⟩
  | _ => cases h

end Capture

theorem Except.toOption_eq_some_iff {ε α : Type} {x : Except ε α} {a : α} :
    x.toOption = some a ↔ x = .ok a := by
  cases x <;> simp [Except.toOption]

namespace Pattern

variable {p q : Pattern} {s : Stmt} {m : Match} {vs ws : List Visit} {ls rest : List Value}

/-! ## Putting an operation together -/

/-- What was put together, if it computes a value. -/
def operand : Option (Stmt × List Value) → Option (Value × List Value)
  | some (.value v, rest) => some (v, rest)
  | _ => none

theorem operand_eq_some_iff {x : Option (Stmt × List Value)} {e : Value × List Value} :
    operand x = some e ↔ x = some (.value e.1, e.2) := by
  obtain ⟨v, rest⟩ := e
  rcases x with _ | ⟨s, ls⟩
  · simp [operand]
  · cases s <;> simp [operand]

/-- The operation that the pattern becomes when its wildcards are replaced by the listed values,
    in visiting order, and its capturing parts by what the match holds for them, each looked up
    at the kind of value that the part captures; and the listed values that are left. -/
def rebuild (m : Match) : Pattern → List Value → Option (Stmt × List Value)
  | wild, ls => ls.head?.map fun v => (.value v, ls.tail)
  | const k t, ls => (m.word (const k t)).toOption.map fun w => (.value (.const w), ls)
  | read k t, ls => (m.register (read k t)).toOption.map fun r => (.value (.read r), ls)
  | write k t p, ls =>
    (m.register (write k t p)).toOption.bind fun r =>
      (operand (rebuild m p ls)).map fun v => (.write r v.1, v.2)
  | load p, ls => (operand (rebuild m p ls)).map fun a => (.value (.load a.1), a.2)
  | store p q, ls =>
    (operand (rebuild m p ls)).bind fun a =>
      (operand (rebuild m q a.2)).map fun v => (.store a.1 v.1, v.2)
  | binary k t p q, ls =>
    (m.binaryOp (binary k t p q)).toOption.bind fun op =>
      (operand (rebuild m p ls)).bind fun l =>
        (operand (rebuild m q l.2)).map fun r => (.value (.binary op l.1 r.1), r.2)
  | unary k t p, ls =>
    (m.unaryOp (unary k t p)).toOption.bind fun op =>
      (operand (rebuild m p ls)).map fun v => (.value (.unary op v.1), v.2)
  | address, ls => (m.label address).toOption.map fun l => (.value (.address l), ls)
  | call, ls => (m.call call).toOption.map fun e => (.value (.call e.1 e.2), ls)
  | ret, ls => (m.ret ret).toOption.map fun b => (.ret b, ls)

/-- The match holds what was captured on these visits. -/
def Held (m : Match) (vs : List Visit) : Prop :=
  ∀ place c, (place, c) ∈ capturesOf vs → m.get? place = some c

theorem held_append : Held m (vs ++ ws) ↔ Held m vs ∧ Held m ws := by
  simp only [Held, capturesOf_append, List.mem_append, or_imp, forall_and]

@[simp] theorem held_nil : Held m [] := by simp [Held]

@[simp] theorem held_capture {place : Part} {c : Capture} {test : Match → Bool} :
    Held m (.capture place c test :: vs) ↔ m.get? place = some c ∧ Held m vs := by
  simp [Held, Visit.capture?, or_imp, forall_and]

@[simp] theorem held_write {place : Part} {r : Register} {test : Match → Bool} :
    Held m (.write place r test :: vs) ↔ m.get? place = some (.register r) ∧ Held m vs := by
  simp [Held, Visit.capture?, or_imp, forall_and]

@[simp] theorem held_leaf {v : Value} : Held m (.leaf v :: vs) ↔ Held m vs := by
  simp [Held, Visit.capture?]

/-- A part without operands. -/
theorem single_iff {α : Type} {node : α → Stmt} {make : α → Capture} {t : α → Match → Bool}
    {place : Part} :
    (∃ a, m.get? place = some (make a) ∧ (node a, ls) = (s, rest)) ↔
      ∃ vs, (∃ a, s = node a ∧ vs = [.capture place (make a) (t a)]) ∧
        ls = leavesOf vs ++ rest ∧ Held m vs := by
  constructor
  · rintro ⟨a, ha, e⟩
    cases e
    exact ⟨_, ⟨a, rfl, rfl⟩, rfl, by simpa using ha⟩
  · rintro ⟨_, ⟨a, rfl, rfl⟩, rfl, ha⟩
    exact ⟨a, (held_capture.1 ha).1, rfl⟩

/-- **What is rebuilt is the operation that the pattern visits** with the listed values left open
    and with captures that the match holds. -/
theorem rebuild_eq_some_iff : rebuild m p ls = some (s, rest) ↔
    ∃ vs, Visits p s vs ∧ ls = leavesOf vs ++ rest ∧ Held m vs := by
  induction p generalizing s ls rest with
  | wild =>
    simp only [rebuild, visits_wild]
    cases ls <;> simp [Visit.leaf?, eq_comm, and_comm]
  | const k t =>
    simp only [rebuild, visits_const, Option.map_eq_some_iff, Except.toOption_eq_some_iff,
      Match.word_eq_ok_iff, part?, Option.bind_some]
    exact single_iff
  | read k t =>
    simp only [rebuild, visits_read, Option.map_eq_some_iff, Except.toOption_eq_some_iff,
      Match.register_eq_ok_iff, part?, Option.bind_some]
    exact single_iff
  | write k t p ih =>
    simp only [rebuild, visits_write, Option.map_eq_some_iff, Option.bind_eq_some_iff,
      Except.toOption_eq_some_iff, operand_eq_some_iff, Match.register_eq_ok_iff, part?,
      Option.bind_some]
    constructor
    · rintro ⟨r, hr, ⟨v, ls'⟩, hv, e⟩
      cases e
      obtain ⟨vs, hvs, rfl, hheld⟩ := ih.1 hv
      exact ⟨_, ⟨r, v, vs, rfl, hvs, rfl⟩, rfl, held_write.2 ⟨hr, hheld⟩⟩
    · rintro ⟨_, ⟨r, v, vs, rfl, hvs, rfl⟩, rfl, hheld⟩
      obtain ⟨hr, hheld⟩ := held_write.1 hheld
      exact ⟨r, hr, (v, rest), ih.2 ⟨vs, hvs, rfl, hheld⟩, rfl⟩
  | load p ih =>
    simp only [rebuild, visits_load, Option.map_eq_some_iff, operand_eq_some_iff]
    constructor
    · rintro ⟨⟨a, ls'⟩, ha, e⟩
      cases e
      obtain ⟨vs, hvs, rfl, hheld⟩ := ih.1 ha
      exact ⟨vs, ⟨a, rfl, hvs⟩, rfl, hheld⟩
    · rintro ⟨vs, ⟨a, rfl, hvs⟩, rfl, hheld⟩
      exact ⟨(a, rest), ih.2 ⟨vs, hvs, rfl, hheld⟩, rfl⟩
  | store p q ihp ihq =>
    simp only [rebuild, visits_store, Option.map_eq_some_iff, Option.bind_eq_some_iff,
      operand_eq_some_iff]
    constructor
    · rintro ⟨⟨a, ls₁⟩, ha, ⟨v, ls₂⟩, hv, e⟩
      cases e
      obtain ⟨us, hus, rfl, hheld₁⟩ := ihp.1 ha
      obtain ⟨ws, hws, rfl, hheld₂⟩ := ihq.1 hv
      exact ⟨_, ⟨a, v, us, ws, rfl, hus, hws, rfl⟩, by simp, held_append.2 ⟨hheld₁, hheld₂⟩⟩
    · rintro ⟨_, ⟨a, v, us, ws, rfl, hus, hws, rfl⟩, rfl, hheld⟩
      obtain ⟨hheld₁, hheld₂⟩ := held_append.1 hheld
      exact ⟨(a, leavesOf ws ++ rest), ihp.2 ⟨us, hus, by simp, hheld₁⟩, (v, rest),
        ihq.2 ⟨ws, hws, rfl, hheld₂⟩, rfl⟩
  | binary k t p q ihp ihq =>
    simp only [rebuild, visits_binary, Option.map_eq_some_iff, Option.bind_eq_some_iff,
      Except.toOption_eq_some_iff, operand_eq_some_iff, Match.binaryOp_eq_ok_iff, part?,
      Option.bind_some]
    constructor
    · rintro ⟨op, hop, ⟨l, ls₁⟩, hl, ⟨r, ls₂⟩, hr, e⟩
      cases e
      obtain ⟨us, hus, rfl, hheld₁⟩ := ihp.1 hl
      obtain ⟨ws, hws, rfl, hheld₂⟩ := ihq.1 hr
      exact ⟨_, ⟨op, l, r, us, ws, rfl, hus, hws, rfl⟩, by simp [Visit.leaf?],
        held_capture.2 ⟨hop, held_append.2 ⟨hheld₁, hheld₂⟩⟩⟩
    · rintro ⟨_, ⟨op, l, r, us, ws, rfl, hus, hws, rfl⟩, rfl, hheld⟩
      obtain ⟨hop, hheld⟩ := held_capture.1 hheld
      obtain ⟨hheld₁, hheld₂⟩ := held_append.1 hheld
      exact ⟨op, hop, (l, leavesOf ws ++ rest), ihp.2 ⟨us, hus, by simp [Visit.leaf?], hheld₁⟩,
        (r, rest), ihq.2 ⟨ws, hws, rfl, hheld₂⟩, rfl⟩
  | unary k t p ih =>
    simp only [rebuild, visits_unary, Option.map_eq_some_iff, Option.bind_eq_some_iff,
      Except.toOption_eq_some_iff, operand_eq_some_iff, Match.unaryOp_eq_ok_iff, part?,
      Option.bind_some]
    constructor
    · rintro ⟨op, hop, ⟨v, ls'⟩, hv, e⟩
      cases e
      obtain ⟨vs, hvs, rfl, hheld⟩ := ih.1 hv
      exact ⟨_, ⟨op, v, vs, rfl, hvs, rfl⟩, rfl, held_capture.2 ⟨hop, hheld⟩⟩
    · rintro ⟨_, ⟨op, v, vs, rfl, hvs, rfl⟩, rfl, hheld⟩
      obtain ⟨hop, hheld⟩ := held_capture.1 hheld
      exact ⟨op, hop, (v, rest), ih.2 ⟨vs, hvs, rfl, hheld⟩, rfl⟩
  | address =>
    simp only [rebuild, visits_address, Option.map_eq_some_iff, Except.toOption_eq_some_iff,
      Match.label_eq_ok_iff, part?, Option.bind_some]
    exact single_iff
  | call =>
    simp only [rebuild, visits_call, Option.map_eq_some_iff, Except.toOption_eq_some_iff,
      Match.call_eq_ok_iff, part?, Option.bind_some]
    refine (single_iff (t := fun _ _ => true)).trans ?_
    simp only [Prod.exists]
  | ret =>
    simp only [rebuild, visits_ret, Option.map_eq_some_iff, Except.toOption_eq_some_iff,
      Match.ret_eq_ok_iff, part?, Option.bind_some]
    exact single_iff

/-! ## The parts of a pattern -/

/-- The parts of a pattern, itself included, in visiting order. -/
def parts : Pattern → List Pattern
  | wild => [wild]
  | const k t => [const k t]
  | read k t => [read k t]
  | write k t p => write k t p :: p.parts
  | load p => load p :: p.parts
  | store p q => store p q :: (p.parts ++ q.parts)
  | binary k t p q => binary k t p q :: (p.parts ++ q.parts)
  | unary k t p => unary k t p :: p.parts
  | address => [address]
  | call => [call]
  | ret => [ret]

/-- Does the pattern leave everything open? -/
def isWild : Pattern → Bool
  | wild => true
  | _ => false

/-- The number of wildcards. -/
def wildcards (p : Pattern) : Nat := p.parts.countP isWild

/-- The place where the root of a pattern keeps its capture, and the kind of value that it
    captures. -/
def slot? : Pattern → Option (Part × CaptureKind)
  | const k _ => some (.own k, .word)
  | read k _ | write k _ _ => some (.own k, .register)
  | binary k _ _ _ => some (.own k, .binaryOp)
  | unary k _ _ => some (.own k, .unaryOp)
  | address => some (.label, .label)
  | call => some (.call, .call)
  | ret => some (.ret, .ret)
  | wild | load _ | store _ _ => none

theorem part?_eq_map_slot? (p : Pattern) : p.part? = p.slot?.map (·.1) := by cases p <;> rfl

/-- The places and kinds of all captures. -/
def slots (p : Pattern) : List (Part × CaptureKind) := p.parts.filterMap slot?

/-- The numbers of the parts. -/
def numbers (p : Pattern) : List Nat := p.slots.filterMap fun e => e.1.number?

@[simp] theorem slots_write {k : Nat} {t : Test Register} :
    (write k t p).slots = (.own k, .register) :: p.slots := rfl

@[simp] theorem slots_load : (load p).slots = p.slots := rfl

@[simp] theorem slots_store : (store p q).slots = p.slots ++ q.slots := List.filterMap_append

@[simp] theorem slots_binary {k : Nat} {t : Test BinaryOp} :
    (binary k t p q).slots = (.own k, .binaryOp) :: (p.slots ++ q.slots) :=
  congrArg (List.cons _) List.filterMap_append

@[simp] theorem slots_unary {k : Nat} {t : Test UnaryOp} :
    (unary k t p).slots = (.own k, .unaryOp) :: p.slots := rfl

namespace Visits

/-- There are as many values left open as wildcards. -/
theorem length_leavesOf (h : Visits p s vs) : (leavesOf vs).length = p.wildcards := by
  rw [wildcards]
  induction h with
  | wild | const | read | address | call | ret => rfl
  | write _ _ ih | unary _ _ ih | load _ ih => simpa [parts, isWild, Visit.leaf?] using ih
  | store _ _ ihp ihq | binary _ _ _ ihp ihq =>
    simp [parts, isWild, Visit.leaf?, List.countP_append, ihp, ihq]

/-- Each capturing part captures a value of its kind. -/
theorem map_capturesOf (h : Visits p s vs) :
    (capturesOf vs).map (fun e => (e.1, e.2.kind)) = p.slots := by
  induction h with
  | wild | const | read | address | call | ret => rfl
  | write _ _ ih | unary _ _ ih => simp [Visit.capture?, ih]; rfl
  | load _ ih => exact ih
  | store _ _ ihp ihq => simp [ihp, ihq]
  | binary _ _ _ ihp ihq => simp [Visit.capture?, ihp, ihq]; rfl

/-- What is captured at a place is of the kind of some part with this place. -/
theorem mem_slots (h : Visits p s vs) {place : Part} {c : Capture} (hc : (place, c) ∈ capturesOf vs) :
    (place, c.kind) ∈ p.slots := by
  rw [← h.map_capturesOf]
  exact List.mem_map.2 ⟨_, hc, rfl⟩

/-- Each capturing part captures something. -/
theorem exists_mem_capturesOf (h : Visits p s vs) {place : Part} {kind : CaptureKind}
    (hq : (place, kind) ∈ p.slots) : ∃ c, (place, c) ∈ capturesOf vs ∧ c.kind = kind := by
  rw [← h.map_capturesOf] at hq
  obtain ⟨⟨_, c⟩, hc, e⟩ := List.mem_map.1 hq
  cases e
  exact ⟨c, hc, rfl⟩

/-- Only a whole operation is a return. -/
theorem not_mem_capturesOf_ret (h : Visits p s vs) (hs : ∀ b, s ≠ .ret b) (c : Capture) :
    (.ret, c) ∉ capturesOf vs := by
  induction h with
  | wild | const | read | address | call => simp [Visit.capture?]
  | write _ _ ih | unary _ _ ih => simpa [Visit.capture?] using ih (by simp)
  | load _ ih => exact ih (by simp)
  | store _ _ ihp ihq => simpa using ⟨ihp (by simp), ihq (by simp)⟩
  | binary _ _ _ ihp ihq => simpa [Visit.capture?] using ⟨ihp (by simp), ihq (by simp)⟩
  | ret b => exact absurd rfl (hs b)

end Visits

/-- Of two entries with one number there is only one. -/
theorem eq_of_numbers_nodup {β : Type} {l : List (Part × β)} {k : Nat} {a b : β}
    (h : (l.filterMap fun e => e.1.number?).Nodup) (ha : (.own k, a) ∈ l) (hb : (.own k, b) ∈ l) :
    a = b := by
  induction l with
  | nil => cases ha
  | cons e l ih =>
    have hnot : ∀ {c : β}, e = (.own k, c) → ∀ {c'}, (.own k, c') ∉ l := by
      rintro c rfl c' hc'
      exact (List.nodup_cons.1 h).1 (List.mem_filterMap.2 ⟨_, hc', rfl⟩)
    rcases List.mem_cons.1 ha with ha | ha <;> rcases List.mem_cons.1 hb with hb | hb
    · cases ha.trans hb.symm; rfl
    · exact absurd hb (hnot ha.symm)
    · exact absurd ha (hnot hb.symm)
    · exact ih (h.sublist ((List.sublist_cons_self e l).filterMap _)) ha hb

section
variable (h : Visits p s vs)
include h

theorem Visits.numbers_capturesOf :
    (capturesOf vs).filterMap (fun e => e.1.number?) = p.numbers := by
  rw [numbers, ← h.map_capturesOf, List.filterMap_map]
  rfl

/-- A numbered part captures one value. -/
theorem Visits.own_unique (hp : p.numbers.Nodup) {k : Nat} {c c' : Capture}
    (hc : (.own k, c) ∈ capturesOf vs) (hc' : (.own k, c') ∈ capturesOf vs) : c = c' :=
  eq_of_numbers_nodup (h.numbers_capturesOf ▸ hp) hc hc'

/-- So does a return part. -/
theorem Visits.ret_unique {c c' : Capture} (hc : (.ret, c) ∈ capturesOf vs)
    (hc' : (.ret, c') ∈ capturesOf vs) : c = c' := by
  by_cases hs : ∃ b, s = .ret b
  · obtain ⟨b, rfl⟩ := hs
    cases h
    simp only [capturesOf_cons, Visit.capture?, Option.toList_some, capturesOf_nil, List.append_nil,
      List.mem_singleton, Prod.mk.injEq, true_and] at hc hc'
    rw [hc, hc']
  · exact absurd hc (h.not_mem_capturesOf_ret (not_exists.1 hs) c)

end

/-! ## What is found again -/

/-- The match holds what was captured last at a place. -/
theorem get?_foldl_note (vs : List Visit) (place : Part) :
    (vs.foldl Visit.note {}).get? place = (capturesOf vs).reverse.lookup place := by
  rw [Match.get?, captures_foldl_note]
  simp

/-- Something is found where something was captured. -/
theorem exists_get?_foldl_note {place : Part} {c : Capture} (hc : (place, c) ∈ capturesOf vs) :
    ∃ c', (vs.foldl Visit.note {}).get? place = some c' ∧ (place, c') ∈ capturesOf vs := by
  rw [get?_foldl_note]
  cases hl : (capturesOf vs).reverse.lookup place with
  | none =>
    have := List.lookup_eq_none_iff.1 hl _ (List.mem_reverse.2 hc)
    simp at this
  | some c' =>
    obtain ⟨l₁, l₂, e, -⟩ := List.lookup_eq_some_iff.1 hl
    exact ⟨c', rfl, List.mem_reverse.1 (by rw [e]; simp)⟩

/-- All captures are found again if no place was used for two values. -/
theorem held_foldl_note_iff : Held (vs.foldl Visit.note {}) vs ↔
    ∀ place c c', (place, c) ∈ capturesOf vs → (place, c') ∈ capturesOf vs → c = c' := by
  constructor
  · intro h place c c' hc hc'
    exact Option.some.inj ((h place c hc).symm.trans (h place c' hc'))
  · intro h place c hc
    obtain ⟨c', hget, hc'⟩ := exists_get?_foldl_note hc
    rw [hget, h place c c' hc hc']

theorem kind_of_mem_slots {place : Part} {kind kind' : CaptureKind}
    (hk : (place, kind) ∈ p.slots) (hplace : place.kind? = some kind') : kind = kind' := by
  obtain ⟨q, -, hq⟩ := List.mem_filterMap.1 hk
  cases q
  all_goals cases hq
  all_goals cases hplace
  all_goals rfl

/-- A place is used for values of one kind. -/
theorem kind_unique (hp : p.numbers.Nodup) {place : Part} {kind kind' : CaptureKind}
    (hk : (place, kind) ∈ p.slots) (hk' : (place, kind') ∈ p.slots) : kind = kind' := by
  cases place with
  | own k => exact eq_of_numbers_nodup hp hk hk'
  | label | call | ret => rw [kind_of_mem_slots hk rfl, kind_of_mem_slots hk' rfl]

/-- All label parts met one label, and all call parts one call. -/
def Agree (vs : List Visit) : Prop :=
  (∀ l l', (.label, .label l) ∈ capturesOf vs → (.label, .label l') ∈ capturesOf vs → l = l') ∧
    ∀ f n f' n', (.call, .call f n) ∈ capturesOf vs → (.call, .call f' n') ∈ capturesOf vs →
      f = f' ∧ n = n'

/-- What a match tells about the operation that it comes from. -/
structure Faithful (p : Pattern) (s : Stmt) (m : Match) (vs : List Visit) : Prop where
  /-- There are as many values left open as wildcards. -/
  leaves : m.leaves = leavesOf vs ∧ m.leaves.length = p.wildcards
  /-- Looking up a capturing part at its kind gives the value that was captured last at its
      place. -/
  lookups : ∀ q ∈ p.parts, ∀ place kind, q.slot? = some (place, kind) →
    ∃ c, m.value q kind = .ok c ∧ (capturesOf vs).reverse.lookup place = some c
  /-- For a numbered part this is the value that passed its test. -/
  own : ∀ k c, (.own k, c) ∈ capturesOf vs → m.get? (.own k) = some c
  /-- The operation is rebuilt from the match if and only if all label parts met one label, and
      all call parts one call. -/
  exact : rebuild m p m.leaves = some (s, []) ↔ Agree vs
  /-- In particular it is if each part has a place of its own. -/
  apart : (p.slots.map (·.1)).Nodup → rebuild m p m.leaves = some (s, [])

section
variable (h : Visits p s vs)
include h

theorem Visits.exists_lookup (hp : p.numbers.Nodup) (hq : q ∈ p.parts) {place : Part}
    {kind : CaptureKind} (hslot : q.slot? = some (place, kind)) :
    ∃ c, (vs.foldl Visit.note {}).value q kind = .ok c ∧
      (capturesOf vs).reverse.lookup place = some c := by
  have hmem : (place, kind) ∈ p.slots := List.mem_filterMap.2 ⟨q, hq, hslot⟩
  obtain ⟨c₀, hc₀, rfl⟩ := h.exists_mem_capturesOf hmem
  obtain ⟨c, hget, hc⟩ := exists_get?_foldl_note hc₀
  refine ⟨c, Match.value_eq_ok_iff.2 ⟨?_, kind_unique hp (h.mem_slots hc) hmem⟩, ?_⟩
  · rw [part?_eq_map_slot?, hslot]
    exact hget
  · rw [← get?_foldl_note, hget]

/-- The operation is rebuilt from the match exactly if no place was used for two values. -/
theorem Visits.rebuild_iff :
    rebuild (vs.foldl Visit.note {}) p (leavesOf vs) = some (s, []) ↔
      ∀ place c c', (place, c) ∈ capturesOf vs → (place, c') ∈ capturesOf vs → c = c' := by
  rw [rebuild_eq_some_iff, ← held_foldl_note_iff]
  constructor
  · rintro ⟨ws, hws, -, hheld⟩
    rw [← h.unique hws] at hheld
    exact hheld
  · intro hheld
    exact ⟨vs, h, by simp, hheld⟩

/-- Only the places of labels and calls can be used for two values. -/
theorem Visits.functional_iff_agree (hp : p.numbers.Nodup) :
    (∀ place c c', (place, c) ∈ capturesOf vs → (place, c') ∈ capturesOf vs → c = c') ↔
      Agree vs := by
  constructor
  · intro hall
    refine ⟨fun l l' hl hl' => ?_, fun f n f' n' hf hf' => ?_⟩
    · exact Capture.label.inj (hall _ _ _ hl hl')
    · exact Capture.call.inj (hall _ _ _ hf hf')
  · rintro ⟨hlabel, hcall⟩ place c c' hc hc'
    cases place with
    | own k => exact h.own_unique hp hc hc'
    | ret => exact h.ret_unique hc hc'
    | label =>
      obtain ⟨l, rfl⟩ := Capture.exists_label (kind_of_mem_slots (h.mem_slots hc) rfl)
      obtain ⟨l', rfl⟩ := Capture.exists_label (kind_of_mem_slots (h.mem_slots hc') rfl)
      rw [hlabel l l' hc hc']
    | call =>
      obtain ⟨f, n, rfl⟩ := Capture.exists_call (kind_of_mem_slots (h.mem_slots hc) rfl)
      obtain ⟨f', n', rfl⟩ := Capture.exists_call (kind_of_mem_slots (h.mem_slots hc') rfl)
      obtain ⟨rfl, rfl⟩ := hcall f n f' n' hc hc'
      rfl

/-- What is captured at places that are all different is all found again. -/
theorem Visits.functional_of_nodup (hp : (p.slots.map (·.1)).Nodup) {place : Part} {c c' : Capture}
    (hc : (place, c) ∈ capturesOf vs) (hc' : (place, c') ∈ capturesOf vs) : c = c' := by
  have hkeys : ((capturesOf vs).map (·.1)).Nodup := by
    rw [← h.map_capturesOf, List.map_map] at hp
    exact hp
  exact congrArg Prod.snd (List.inj_on_of_nodup_map hkeys hc hc' rfl)

theorem Visits.faithful (hp : p.numbers.Nodup) : Faithful p s (vs.foldl Visit.note {}) vs := by
  have hleaves : (vs.foldl Visit.note {}).leaves = leavesOf vs := leaves_foldl_note {} vs
  refine ⟨⟨hleaves, hleaves ▸ h.length_leavesOf⟩, fun q hq _ _ => h.exists_lookup hp hq,
    fun k c hc => ?_, ?_, fun hall => ?_⟩
  · obtain ⟨c', hget, hc'⟩ := exists_get?_foldl_note hc
    rw [hget, h.own_unique hp hc hc']
  · rw [hleaves, h.rebuild_iff, h.functional_iff_agree hp]
  · rw [hleaves]
    exact h.rebuild_iff.2 fun _ _ _ => h.functional_of_nodup hall

end

/-- **What a match keeps.**  A pattern matches exactly the operations of its shape that pass its
    tests, each made in visiting order on the captures before it, and the match holds what was
    left open and captured on the way.  If no two parts have one number, then nothing is lost,
    except where label parts meet different labels or call parts different calls. -/
theorem apply_faithful (p : Pattern) (hp : p.numbers.Nodup) (s : Stmt) :
    (∀ m, p.apply s = some m ↔
      ∃ vs, Visits p s vs ∧ Accepted {} vs ∧ vs.foldl Visit.note {} = m) ∧
    ∀ m, p.apply s = some m → ∃ vs, Visits p s vs ∧ Accepted {} vs ∧ Faithful p s m vs := by
  refine ⟨fun m => apply_eq_some_iff, fun m hm => ?_⟩
  obtain ⟨vs, hvs, haccepted, rfl⟩ := apply_eq_some_iff.1 hm
  exact ⟨vs, hvs, haccepted, hvs.faithful hp⟩

/-- An update of a register by the distance of a value from a label. -/
def updateSample : Pattern :=
  write 0 .any (binary 1 (.is .add) (read 2 .written) (binary 3 .any address wild))

/-- An operation of this shape. -/
def updateStmtSample : Stmt :=
  .write (.virtual 1) (.binary .add (.read (.virtual 1)) (.binary .sub (.address "x") (.const 5)))

theorem apply_faithful_update : updateSample.numbers.Nodup ∧
    (updateSample.slots.map (·.1)).Nodup ∧ ∃ m, updateSample.apply updateStmtSample = some m ∧
      ∃ vs, Visits updateSample updateStmtSample vs ∧ Accepted {} vs ∧
        Faithful updateSample updateStmtSample m vs :=
  ⟨by decide, by decide, _, rfl, (apply_faithful updateSample (by decide) updateStmtSample).2 _ rfl⟩

-- with two label parts, the label found for both of them is the second one
example : ((binary 0 .any address address).apply
    (.value (.binary .sub (.address "p") (.address "q")))).bind
      (fun m => rebuild m (binary 0 .any address address) m.leaves) =
    some (.value (.binary .sub (.address "q") (.address "q")), []) := rfl

end Pattern

end Codegen
