/-
  Runs of a function with its frame code.

  A run goes through the prologue once, then through the body, and through an epilogue
  before it returns (`Phase`).  What the prologue establishes and the body keeps is true
  while the run is in the body, and when an epilogue starts (`phase_of_run`).
-/
import Codegen.Proofs.Frame.Code

namespace Codegen

/-! ## Steps from a start -/

namespace Machine

variable {m n n' : Machine} {j : Nat} {i : Instr} {q : Nat}

theorem Steps.labels_eq (h : Steps j m n) : n.labels = m.labels := by
  induction h with
  | refl => rfl
  | head h _ ih => exact ih.trans h.frame.2.2.1

theorem Steps.snoc (hs : Steps j m n) (h : Step n n') : Steps (j + 1) m n' := by
  induction hs with
  | refl => exact .head h (.refl _)
  | head h₁ _ ih => exact .head h₁ (ih h)

/-- What is true at the start and kept by the steps from there is true all along. -/
theorem Steps.forall {P : Nat → Machine → Prop} (hs : Steps j m n) (hstart : P 0 m)
    (hstep : ∀ k a b, Steps k m a → Step a b → P k a → P (k + 1) b) : P j n := by
  have key : ∀ {k j a c}, Steps j a c → Steps k m a → P k a → P (k + j) c := by
    intro k j a c h
    clear hs
    induction h generalizing k with
    | refl => exact fun _ hP => hP
    | @head j a b c h _ ih =>
      intro hs hP
      rw [show k + (j + 1) = k + 1 + j by omega]
      exact ih (hs.snoc h) (hstep k a b hs h hP)
  have h := key hs (.refl m) hstart
  rwa [Nat.zero_add] at h

/-- A run through code goes on with one more instruction. -/
theorem Runs.snoc {near : Word → Prop} {code : List Instr} (h : Runs near code m n) (hnear : ∀ a, near a)
    (hi : i.Straight) (e : Exec.execute i n.tick = .ok () n') : Runs near (code ++ [i]) m n' :=
  h.append (.single hi (safe_of_forall hnear _ _) e)

/-- In the run from `m`, the `j`-th instruction is `i`, which stands at `q` and takes the
    machine from `n` to `n'`. -/
structure Executes (m : Machine) (j : Nat) (i : Instr) (q : Nat) (n n' : Machine) : Prop where
  reached : ∃ m₁, m.items.zipIdx.forM Exec.define m = .ok () m₁ ∧ Steps j m₁ n
  running : n.returned = false
  next : Exec.firstInstr n.position (n.items.drop n.position) = some (i, q)
  execute : Exec.execute i (n.fetch q) = .ok () n'

end Machine

theorem Stream.At.getElem? {items : Stream} {i : Instr} {code : List Instr} {q : Nat}
    (h : items.At q (i :: code)) : items[q]? = some (.instr i) :=
  (Stream.firstInstr_iff.1 h.firstInstr).2

/-! ## Bodies with epilogues -/

namespace Compiler

variable {epilogue : List Instr} {xs ys : Stream} {i : Instr} {p q : Nat}

theorem withEpilogue_append :
    withEpilogue epilogue (xs ++ ys) = withEpilogue epilogue xs ++ withEpilogue epilogue ys :=
  List.flatMap_append

theorem withEpilogue_cons_instr (h : ∀ rs, i ≠ .ret rs) :
    withEpilogue epilogue (.instr i :: xs) = .instr i :: withEpilogue epilogue xs := by
  cases i with
  | ret rs => exact absurd rfl (h rs)
  | _ => rfl

theorem withEpilogue_cons_ret {rs : List Register} :
    withEpilogue epilogue (.instr (.ret rs) :: xs) =
      (epilogue ++ [Instr.ret rs]).map Item.instr ++ withEpilogue epilogue xs := by
  rw [List.map_append]
  rfl

/-- The next instruction is one of the body, or the first one of an epilogue. -/
theorem firstInstr_withEpilogue (hne : epilogue ≠ [])
    (h : Exec.firstInstr p (withEpilogue epilogue ys) = some (i, q)) :
    ∃ xs i₀ zs, ys = xs ++ .instr i₀ :: zs ∧ q = p + (withEpilogue epilogue xs).length ∧
      ((∀ rs, i₀ ≠ .ret rs) ∧ i = i₀ ∨ ∃ rs code, i₀ = .ret rs ∧ epilogue = i :: code) := by
  induction ys generalizing p with
  | nil => cases h
  | cons item ys ih =>
    have hskip : withEpilogue epilogue (item :: ys) = item :: withEpilogue epilogue ys →
        Exec.firstInstr (p + 1) (withEpilogue epilogue ys) = some (i, q) →
        ∃ xs i₀ zs, item :: ys = xs ++ .instr i₀ :: zs ∧ q = p + (withEpilogue epilogue xs).length ∧
          ((∀ rs, i₀ ≠ .ret rs) ∧ i = i₀ ∨ ∃ rs code, i₀ = .ret rs ∧ epilogue = i :: code) := by
      intro hitem h
      obtain ⟨xs, i₀, zs, rfl, rfl, hi⟩ := ih h
      refine ⟨item :: xs, i₀, zs, rfl, ?_, hi⟩
      rw [show item :: (xs ++ Item.instr i₀ :: zs) = (item :: xs) ++ Item.instr i₀ :: zs from rfl,
        withEpilogue_append, withEpilogue_append, ← List.cons_append] at hitem
      rw [List.append_cancel_right hitem, List.length_cons]
      omega
    cases item with
    | label l => exact hskip rfl h
    | stray r => exact hskip rfl h
    | instr i₀ =>
      by_cases hret : ∃ rs, i₀ = .ret rs
      · obtain ⟨rs, rfl⟩ := hret
        obtain ⟨first, code, e⟩ := List.exists_cons_of_ne_nil hne
        rw [withEpilogue_cons_ret, e] at h
        cases h
        exact ⟨[], _, ys, rfl, rfl, Or.inr ⟨rs, code, rfl, e⟩⟩
      · have hret : ∀ rs, i₀ ≠ .ret rs := fun rs e => hret ⟨rs, e⟩
        rw [withEpilogue_cons_instr hret] at h
        cases h
        exact ⟨[], _, ys, rfl, rfl, Or.inl ⟨hret, rfl⟩⟩

end Compiler

/-- A body with its frame code. -/
structure Wrapping where
  entry : Label
  frame : Frame
  saved : List Saved
  body : Stream

namespace Wrapping

open Compiler

variable {w : Wrapping} {xs ys zs : Stream} {i : Instr} {q : Nat} {rs : List Register}

/-- The code that sets the frame up. -/
def prologue (w : Wrapping) : List Instr := w.frame.enterCode w.saved

/-- The code that tears the frame down. -/
def epilogue (w : Wrapping) : List Instr := Frame.leaveCode w.saved

/-- The stream. -/
def items (w : Wrapping) : Stream :=
  Stream.front w.entry ++ (w.prologue.map Item.instr ++ withEpilogue w.epilogue w.body)

/-- Where the prologue starts. -/
def top (w : Wrapping) : Nat := (Stream.front w.entry).length

/-- Where the part of the body that follows `xs` starts. -/
def after (w : Wrapping) (xs : Stream) : Nat :=
  w.top + w.prologue.length + (withEpilogue w.epilogue xs).length

/-- An instruction of the body, other than a return, stands at the position. -/
def BodyAt (w : Wrapping) (q : Nat) : Prop :=
  ∃ xs i ys, w.body = xs ++ .instr i :: ys ∧ (∀ rs, i ≠ .ret rs) ∧ q = w.after xs

theorem prologue_ne_nil (w : Wrapping) : w.prologue ≠ [] := by simp [prologue, Frame.enterCode]

theorem epilogue_ne_nil (w : Wrapping) : w.epilogue ≠ [] := by simp [epilogue, Frame.leaveCode]

theorem at_prologue (w : Wrapping) : w.items.At w.top w.prologue := by
  unfold Stream.At items top
  rw [List.drop_left]
  exact List.prefix_append _ _

theorem drop_after (h : w.body = xs ++ ys) : w.items.drop (w.after xs) = withEpilogue w.epilogue ys := by
  unfold items after top
  rw [h, withEpilogue_append, ← List.append_assoc, ← List.append_assoc]
  refine List.drop_left' ?_
  simp [Nat.add_assoc]

theorem at_return (h : w.body = xs ++ .instr (.ret rs) :: zs) :
    w.items.At (w.after xs) (w.epilogue ++ [.ret rs]) := by
  unfold Stream.At
  rw [drop_after h, withEpilogue_cons_ret]
  exact List.prefix_append _ _

theorem after_append (w : Wrapping) (xs ys : Stream) :
    w.after (xs ++ ys) = w.after xs + (withEpilogue w.epilogue ys).length := by
  rw [after, after, withEpilogue_append, List.length_append]
  omega

/-- No instruction of the body stands in an epilogue. -/
theorem not_bodyAt (h : w.body = xs ++ .instr (.ret rs) :: zs) {k : Nat} (hk : 0 < k)
    (hle : k ≤ w.epilogue.length) : ¬ w.BodyAt (w.after xs + k) := by
  rintro ⟨xs', i, ys', h', -, e⟩
  rw [h] at h'
  rcases List.append_eq_append_iff.1 h' with ⟨as, rfl, hret⟩ | ⟨as, rfl, -⟩
  · cases as with
    | nil => rw [List.append_nil] at e; omega
    | cons item as =>
      obtain ⟨rfl, -⟩ := List.cons.inj hret
      rw [after_append, withEpilogue_cons_ret, List.length_append, List.length_map, List.length_append] at e
      simp only [List.length_singleton] at e
      omega
  · rw [after_append] at e
    omega

/-! ## Phases -/

open Machine

/-- How far a run has come after `j` instructions.  It started in `m₀` with the prologue,
    and `inside` is true of it in the body. -/
inductive Phase (w : Wrapping) (inside : Machine → Prop) (m₀ : Machine) (j : Nat) (n : Machine) : Prop
  /-- In the prologue. -/
  | entering {done rest : List Instr} (hcode : w.prologue = done ++ rest) (hrest : rest ≠ [])
      (hj : j = done.length) (hskip : n.items.Skips n.position (w.top + j)) (hret : n.returned = false)
      (hruns : Runs (fun _ => True) done m₀ { n with position := w.top + j })
  /-- In the body. -/
  | inside {xs ys : Stream} (hbody : w.body = xs ++ ys) (hj : w.prologue.length ≤ j)
      (hposition : n.position = w.after xs) (hret : n.returned = false) (hinside : inside n)
  /-- In an epilogue. -/
  | leaving {xs zs : Stream} {rs : List Register} {done rest : List Instr} {n₀ : Machine}
      (hbody : w.body = xs ++ .instr (.ret rs) :: zs) (hj : w.prologue.length ≤ j)
      (hcode : w.epilogue = done ++ rest) (hdone : done ≠ [])
      (hposition : n.position = w.after xs + done.length) (hret : n.returned = false)
      (hinside : inside n₀) (hruns : Runs (fun _ => True) done n₀ n)
  /-- Back at the caller. -/
  | returned {n₀ n₁ : Machine} (hj : w.prologue.length < j) (hret : n.returned = true)
      (hinside : inside n₀) (hruns : Runs (fun _ => True) w.epilogue n₀ n₁)
      (hreads : ∀ r, n.read r = n₁.read r)

/-- What the prologue establishes, whatever the position is. -/
structure Established (w : Wrapping) (inside : Machine → Prop) (m₀ : Machine) : Prop where
  enter : ∀ {n}, Runs (fun _ => True) w.prologue m₀ n → inside n
  move : ∀ {n k}, inside n → inside { n with position := k }

/-- A body that does not leave its code and does not touch the pointers, in a frame with
    room for what is saved. -/
structure Sound (w : Wrapping) : Prop where
  closed : w.body.Closed
  quiet : ∀ i ∈ w.body.instructions, .physical .rsp ∉ Exec.changes i ∧ .physical .rbp ∉ Exec.changes i
  saves : Frame.Saves w.saved
  size : ¬ 0 < w.frame.size → w.frame.size = 0

section
variable {inside : Machine → Prop} {m₀ n n' : Machine} {j : Nat}

/-- In the prologue, the next instruction is the one that follows what is done. -/
theorem next_entering {done rest : List Instr} (hitems : n.items = w.items)
    (hcode : w.prologue = done ++ i :: rest) (hskip : n.items.Skips n.position (w.top + done.length)) :
    Exec.firstInstr n.position (n.items.drop n.position) = some (i, w.top + done.length) := by
  have hat := w.at_prologue
  rw [hcode, Stream.at_append] at hat
  exact Stream.firstInstr_iff.2 ⟨hskip, hitems ▸ hat.2.getElem?⟩

/-- In an epilogue, the next instruction is the one that follows what is done, or the
    return. -/
theorem next_leaving {done rest : List Instr} (hitems : n.items = w.items)
    (hbody : w.body = xs ++ .instr (.ret rs) :: zs) (hcode : w.epilogue ++ [.ret rs] = done ++ i :: rest)
    (hposition : n.position = w.after xs + done.length) :
    Exec.firstInstr n.position (n.items.drop n.position) = some (i, n.position) := by
  have hat := at_return hbody
  rw [hcode, Stream.at_append] at hat
  rw [hitems, hposition]
  exact hat.2.firstInstr

theorem le_of_bodyAt (h : w.BodyAt q) : w.top + w.prologue.length ≤ q := by
  obtain ⟨xs, i, ys, -, -, rfl⟩ := h
  exact Nat.le_add_right _ _

/-- **What a run executes next**: the prologue comes first and once, and what it establishes
    is true when an instruction of the body is executed. -/
theorem Phase.next (h : Phase w inside m₀ j n) (hitems : n.items = w.items) (hret : n.returned = false)
    (hnext : Exec.firstInstr n.position (n.items.drop n.position) = some (i, q)) :
    (j < w.prologue.length → w.prologue[j]? = some i ∧ q = w.top + j) ∧
      (w.prologue.length ≤ j → w.top + w.prologue.length ≤ q) ∧
      (w.BodyAt q → inside n) := by
  cases h with
  | @entering done rest hcode hrest hj hskip =>
    subst hj
    obtain ⟨i', rest, rfl⟩ := List.exists_cons_of_ne_nil hrest
    rw [next_entering hitems hcode hskip] at hnext
    cases hnext
    have hlt : done.length < w.prologue.length := by rw [hcode]; simp
    exact ⟨fun _ => ⟨by rw [hcode]; simp, rfl⟩, fun hle => by omega, fun h => by
      have := le_of_bodyAt h; omega⟩
  | @inside xs ys hbody hj hposition _ hinside =>
    refine ⟨fun h => by omega, fun _ => ?_, fun _ => hinside⟩
    obtain ⟨hle, -⟩ := (Stream.firstInstr_iff.1 hnext).1
    rw [hposition, after] at hle
    omega
  | @leaving xs zs rs done rest n₀ hbody hj hcode hdone hposition =>
    refine ⟨fun h => by omega, fun _ => ?_, fun h => ?_⟩
    · obtain ⟨hle, -⟩ := (Stream.firstInstr_iff.1 hnext).1
      rw [hposition, after] at hle
      omega
    · obtain ⟨i', rest', e⟩ : ∃ i' rest', rest ++ [Instr.ret rs] = i' :: rest' :=
        List.exists_cons_of_ne_nil (by simp)
      rw [next_leaving hitems hbody (by rw [hcode, List.append_assoc, e]) hposition] at hnext
      cases hnext
      rw [hposition] at h
      refine absurd h (not_bodyAt hbody (List.length_pos_iff.2 hdone) ?_)
      rw [hcode, List.length_append]
      omega
  | returned _ h => rw [h] at hret; cases hret

variable (hw : w.body.Closed) (hI : w.Established inside m₀) (hitems : n.items = w.items)
include hI hitems

theorem step_entering {done rest : List Instr} (hcode : w.prologue = done ++ rest) (hrest : rest ≠ [])
    (hj : j = done.length) (hskip : n.items.Skips n.position (w.top + j)) (hret : n.returned = false)
    (hruns : Runs (fun _ => True) done m₀ { n with position := w.top + j })
    (hnext : Exec.firstInstr n.position (n.items.drop n.position) = some (i, q))
    (e : Exec.execute i (n.fetch q) = .ok () n') : Phase w inside m₀ (j + 1) n' := by
  subst hj
  obtain ⟨i', rest, rfl⟩ := List.exists_cons_of_ne_nil hrest
  rw [next_entering hitems hcode hskip] at hnext
  cases hnext
  have hi : i.Straight := Frame.straight_enterCode w.frame w.saved i (by
    change i ∈ w.prologue
    rw [hcode]; simp)
  have hs := hi.sameControl e
  have hposition : n'.position = w.top + (done.length + 1) := hs.position
  have hruns' : Runs (fun _ => True) (done ++ [i]) m₀ n' := hruns.snoc (fun _ => trivial) hi e
  cases rest with
  | nil =>
    rw [← hcode] at hruns'
    refine .inside (show w.body = [] ++ w.body from rfl) (by rw [hcode]; simp) ?_ (hs.returned.trans hret)
      (hI.enter hruns')
    rw [hposition, after, hcode]
    simp [Compiler.withEpilogue]
  | cons i' rest =>
    have hcode' : w.prologue = (done ++ [i]) ++ i' :: rest := by rw [hcode]; simp
    refine .entering hcode' (List.cons_ne_nil i' rest) (by simp) ?_ (hs.returned.trans hret) ?_
    · rw [hposition]
      exact Stream.Skips.refl _ _
    · rw [← hposition]
      exact hruns'

include hw in
theorem step_inside (hplaced : Exec.Placed w.items n.labels) (hbody : w.body = xs ++ ys)
    (hj : w.prologue.length ≤ j) (hposition : n.position = w.after xs) (hret : n.returned = false)
    (hinside : inside n)
    (hnext : Exec.firstInstr n.position (n.items.drop n.position) = some (i, q))
    (e : Exec.execute i (n.fetch q) = .ok () n')
    (hkeep : w.BodyAt q → inside n → inside n') : Phase w inside m₀ (j + 1) n' := by
  rw [hitems, hposition, drop_after hbody] at hnext
  obtain ⟨xs', i₀, zs, rfl, rfl, hi⟩ := firstInstr_withEpilogue w.epilogue_ne_nil hnext
  rw [← after_append] at e hkeep
  rw [← List.append_assoc] at hbody
  rcases hi with ⟨hnot, rfl⟩ | ⟨rs, code, rfl, hcode⟩
  · have hmem : i ∈ w.body.instructions := Stream.instr_mem_iff.1 (by rw [hbody]; simp)
    have hinside' := hkeep ⟨_, i, zs, hbody, hnot, rfl⟩ hinside
    cases (Exec.control_execute e).1 with
    | falls h _ =>
      have hbody' : w.body = (xs ++ xs' ++ [.instr i]) ++ zs := by rw [hbody]; simp
      refine .inside hbody' (by omega) ?_ (h.returned.trans hret) hinside'
      rw [after_append, withEpilogue_cons_instr hnot, h.position]
      rfl
    | @jumps l k hl hk h =>
      obtain ⟨as, bs, hlabel⟩ := List.append_of_mem (hw i hmem l hl)
      have hat : w.items[w.after as]? = some (.label l) := by
        rw [← Nat.add_zero (w.after as), ← List.getElem?_drop, drop_after hlabel]
        rfl
      have hk' := (hplaced l (w.after as)).2 hat
      obtain rfl : w.after as = k := Option.some.inj (hk'.symm.trans hk)
      exact .inside hlabel (by omega) (by rw [h]) (by rw [h]; exact hret) hinside'
    | returns hi _ => exact absurd hi (hnot _)
  · -- the epilogue starts
    have hi : i.Straight := Frame.straight_leaveCode w.saved i (by
      change i ∈ w.epilogue
      rw [hcode]; simp)
    have hs := hi.sameControl e
    exact .leaving hbody (by omega) (show w.epilogue = [i] ++ code from hcode) (by simp) hs.position
      (hs.returned.trans hret)
      (hI.move (k := w.after (xs ++ xs')) hinside) (.single hi (safe_of_forall (fun _ => trivial) _ _) e)

omit hI in
theorem step_leaving {done rest : List Instr} {n₀ : Machine}
    (hbody : w.body = xs ++ .instr (.ret rs) :: zs) (hj : w.prologue.length ≤ j)
    (hcode : w.epilogue = done ++ rest) (hposition : n.position = w.after xs + done.length)
    (hret : n.returned = false) (hinside : inside n₀)
    (hruns : Runs (fun _ => True) done n₀ n)
    (hnext : Exec.firstInstr n.position (n.items.drop n.position) = some (i, q))
    (e : Exec.execute i (n.fetch q) = .ok () n') : Phase w inside m₀ (j + 1) n' := by
  cases rest with
  | nil =>
    rw [next_leaving hitems hbody (by rw [hcode, List.append_nil]) hposition] at hnext
    cases hnext
    rw [List.append_nil] at hcode
    rw [← hcode] at hruns
    cases e
    exact .returned (by omega) rfl hinside hruns fun _ => rfl
  | cons i' rest =>
    rw [next_leaving hitems hbody (by rw [hcode, List.append_assoc, List.cons_append]) hposition] at hnext
    cases hnext
    have hi : i.Straight := Frame.straight_leaveCode w.saved i (by
      change i ∈ w.epilogue
      rw [hcode]; simp)
    have hs := hi.sameControl e
    have hcode' : w.epilogue = (done ++ [i]) ++ rest := by rw [hcode]; simp
    refine .leaving hbody (by omega) hcode' (by simp) ?_ (hs.returned.trans hret) hinside
      (hruns.snoc (fun _ => trivial) hi e)
    rw [hs.position, List.length_append]
    change n.position + 1 = _
    rw [hposition]
    rfl

include hw in
/-- **A step takes a run to its next phase.** -/
theorem Phase.step (h : Phase w inside m₀ j n) (hplaced : Exec.Placed w.items n.labels)
    (hret : n.returned = false)
    (hnext : Exec.firstInstr n.position (n.items.drop n.position) = some (i, q))
    (e : Exec.execute i (n.fetch q) = .ok () n')
    (hkeep : w.BodyAt q → inside n → inside n') : Phase w inside m₀ (j + 1) n' := by
  cases h with
  | entering hcode hrest hj hskip _ hruns =>
    exact step_entering hI hitems hcode hrest hj hskip hret hruns hnext e
  | inside hbody hj hposition _ hinside =>
    exact step_inside hw hI hitems hplaced hbody hj hposition hret hinside hnext e hkeep
  | leaving hbody hj hcode _ hposition _ hinside hruns =>
    exact step_leaving hitems hbody hj hcode hposition hret hinside hruns hnext e
  | returned _ h => rw [h] at hret; cases hret

end

/-! ## Runs -/

variable {inside : Machine → Prop} {m n : Machine} {j : Nat} {limit : Int}

/-- A machine at the first item of a stream is about to enter. -/
theorem phase_start (hitems : m.items = w.items) (hposition : m.position = 0) (hret : m.returned = false) :
    Phase w inside { m with position := w.top } 0 m := by
  refine .entering (show w.prologue = [] ++ w.prologue from rfl) w.prologue_ne_nil rfl ?_ hret (.nil _)
  rw [hposition, hitems]
  refine ⟨Nat.zero_le _, fun k _ hk => ?_⟩
  unfold items top at *
  rw [List.getElem?_append_left hk]
  unfold Stream.front at hk ⊢
  split
  · next hnone => rw [if_pos hnone] at hk; cases hk
  · next hne =>
    rw [if_neg hne] at hk
    obtain rfl : k = 0 := by simpa using hk
    exact ⟨_, rfl, rfl⟩

/-- The phases of the steps from a machine that is about to enter. -/
theorem phase_of_steps (hw : w.body.Closed) (hI : w.Established inside { m with position := w.top })
    (hitems : m.items = w.items) (hplaced : Exec.Placed w.items m.labels)
    (hposition : m.position = 0) (hret : m.returned = false)
    (hkeep : ∀ j i q n n', Steps j m n → n.returned = false →
      Exec.firstInstr n.position (n.items.drop n.position) = some (i, q) →
      Exec.execute i (n.fetch q) = .ok () n' → w.BodyAt q → inside n → inside n')
    (hs : Steps j m n) : Phase w inside { m with position := w.top } j n := by
  refine hs.forall (phase_start hitems hposition hret) fun k a b hs h hphase => ?_
  obtain ⟨hret, i, q, hnext, e⟩ := h
  exact hphase.step hw hI (hs.items_eq.trans hitems) (hs.labels_eq ▸ hplaced) hret hnext e
    (hkeep k i q a b hs hret hnext e)

/-- **The phases of a run** that returns. -/
theorem phase_of_run (hw : w.body.Closed) (hI : ∀ L, w.Established inside { m with labels := L, position := w.top })
    (hitems : m.items = w.items) (hlabels : m.labels = []) (hposition : m.position = 0)
    (hret : m.returned = false)
    (hkeep : ∀ j i q a b, m.Executes j i q a b → w.BodyAt q → inside a → inside b)
    (hrun : m.run limit = (none, n)) :
    ∃ L k, Phase w inside { m with labels := L, position := w.top } k n ∧ n.returned = true ∧
      n.steps = m.steps + k ∧ ∀ {j i q a b}, m.Executes j i q a b →
        Phase w inside { m with labels := L, position := w.top } j a ∧ a.items = w.items := by
  obtain ⟨m₁, hdefine, k, -, hsteps, hn⟩ := Exec.run_eq_ok.1 (run_eq_none.1 hrun)
  obtain ⟨L, rfl, hplaced⟩ := Exec.placed_of_forM hlabels hdefine
  rw [hitems] at hplaced
  have hphase : ∀ {j a}, Steps j { m with labels := L } a →
      Phase w inside { m with labels := L, position := w.top } j a := fun hs =>
    phase_of_steps (m := { m with labels := L }) hw (hI L) hitems hplaced hposition hret
      (fun j i q a b hs hret hnext e => hkeep j i q a b ⟨⟨_, hdefine, hs⟩, hret, hnext, e⟩) hs
  refine ⟨L, k, hphase hsteps, hn, hsteps.steps_eq, ?_⟩
  rintro j i q a b ⟨⟨m₁, hdefine', hs⟩, -, -, -⟩
  obtain rfl : { m with labels := L } = m₁ := by rw [hdefine] at hdefine'; cases hdefine'; rfl
  exact ⟨hphase hs, hs.items_eq.trans hitems⟩

end Wrapping

end Codegen
