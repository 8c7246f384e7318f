/-
  What a layout consists of.

  A walk lays out blocks one after the other, each with the label in front of it
  that its predecessors jump to.  `Laying` says what the pieces are: every block
  once, every successor among them, the labels all different unless the entry label
  is one that is drawn on the way.
-/
import Codegen.Layout
import Codegen.Proofs.Flow.Edges
import Codegen.Proofs.Machine.Code

namespace Codegen

/-- The second supply is what is left of the first one later on. -/
structure Supply.Later (u u' : Supply) : Prop where
  registers : u.registers ≤ u'.registers
  labels : u.labels ≤ u'.labels

theorem Supply.Later.refl (u : Supply) : u.Later u := ⟨Nat.le_refl _, Nat.le_refl _⟩

theorem Supply.Later.trans {u₁ u₂ u₃ : Supply} (h : u₁.Later u₂) (h' : u₂.Later u₃) : u₁.Later u₃ :=
  ⟨Nat.le_trans h.registers h'.registers, Nat.le_trans h.labels h'.labels⟩

namespace Layout

variable {n : Nat} {entry l : Label} {labels labels' : Labels n} {b : Option (Fin n)} {u u' : Supply}

/-! ## Labels -/

/-- Different blocks have different labels: the entry label, or labels drawn so
    far. -/
structure Distinct (entry : Label) (count : Nat) (labels : Labels n) : Prop where
  injective : ∀ {b b' l}, labels.lookup b = some l → labels.lookup b' = some l → b = b'
  named : ∀ {b l}, labels.lookup b = some l → l ≠ Label.none
  drawn : ∀ {b l}, labels.lookup b = some l → l = entry ∨ ∃ k ≤ count, l = Label.generated k

theorem Distinct.mono {count count' : Nat} (h : Distinct entry count labels) (hle : count ≤ count') :
    Distinct entry count' labels :=
  ⟨h.injective, h.named, fun hl => (h.drawn hl).imp_right fun ⟨k, hk, e⟩ => ⟨k, Nat.le_trans hk hle, e⟩⟩

/-- Blocks keep their labels. -/
def Keeps (labels labels' : Labels n) : Prop :=
  ∀ ⦃b l⦄, labels.lookup b = some l → labels'.lookup b = some l

theorem Keeps.refl (labels : Labels n) : Keeps labels labels := fun _ _ h => h

theorem Keeps.trans {l₁ l₂ l₃ : Labels n} (h : Keeps l₁ l₂) (h' : Keeps l₂ l₃) : Keeps l₁ l₃ :=
  fun _ _ hl => h' (h hl)

theorem lookup_cons {b' : Option (Fin n)} :
    List.lookup b ((b', l) :: labels) = if b = b' then some l else labels.lookup b := by
  by_cases h : b = b'
  · simp [h]
  · have hb : (b == b') = false := by simpa using h
    simp [List.lookup_cons, hb, h]

/-- Labels that are all different stay so. -/
def Parts (entry : Label) (u u' : Supply) (labels labels' : Labels n) : Prop :=
  (∀ k, entry ≠ Label.generated k) → Distinct entry u.labels labels → Distinct entry u'.labels labels'

theorem Parts.trans {u₁ u₂ u₃ : Supply} {l₁ l₂ l₃ : Labels n} (h : Parts entry u₁ u₂ l₁ l₂)
    (h' : Parts entry u₂ u₃ l₂ l₃) : Parts entry u₁ u₃ l₁ l₃ :=
  fun hentry hd => h' hentry (h hentry hd)

theorem parts_of_later (h : u.Later u') (entry : Label) (labels : Labels n) :
    Parts entry u u' labels labels := fun _ hd => hd.mono h.labels

/-- A label drawn now is not one of the labels so far. -/
theorem Distinct.cons {count : Nat} (h : Distinct entry count labels)
    (hentry : ∀ k, entry ≠ Label.generated k) (b : Option (Fin n)) :
    Distinct entry (count + 1) ((b, Label.generated (count + 1)) :: labels) := by
  have hnew : ∀ b', labels.lookup b' ≠ some (Label.generated (count + 1)) := by
    intro b' hb'
    rcases h.drawn hb' with e | ⟨k, hk, e⟩
    · exact hentry _ e.symm
    · have := Label.generated_injective e
      omega
  constructor
  · intro b₁ b₂ l' h₁ h₂
    rw [lookup_cons] at h₁ h₂
    split at h₁ <;> split at h₂
    · next e₁ e₂ => rw [e₁, e₂]
    · cases h₁; exact absurd h₂ (hnew _)
    · cases h₂; exact absurd h₁ (hnew _)
    · exact h.injective h₁ h₂
  · intro b' l' h'
    rw [lookup_cons] at h'
    split at h'
    · cases h'; exact Label.generated_ne_none _
    · exact h.named h'
  · intro b' l' h'
    rw [lookup_cons] at h'
    split at h'
    · cases h'; exact Or.inr ⟨count + 1, Nat.le_refl _, rfl⟩
    · exact (h.drawn h').imp_right fun ⟨k, hk, e⟩ => ⟨k, Nat.le_succ_of_le hk, e⟩

/-- Labels are drawn for some of the listed blocks, and nothing else is. -/
structure Gives (entry : Label) (bs : List (Option (Fin n))) (u u' : Supply) (labels labels' : Labels n) :
    Prop where
  registers : u'.registers = u.registers
  later : u.Later u'
  keeps : Keeps labels labels'
  given : ∀ b l, labels'.lookup b = some l → labels.lookup b = some l ∨ b ∈ bs
  distinct : Parts entry u u' labels labels'

theorem Gives.refl (entry : Label) (u : Supply) (labels : Labels n) : Gives entry [] u u labels labels :=
  ⟨rfl, .refl u, .refl labels, fun _ _ h => Or.inl h, fun _ => id⟩

theorem Gives.append {bs bs' : List (Option (Fin n))} {u₁ u₂ u₃ : Supply} {l₁ l₂ l₃ : Labels n}
    (h : Gives entry bs u₁ u₂ l₁ l₂) (h' : Gives entry bs' u₂ u₃ l₂ l₃) :
    Gives entry (bs ++ bs') u₁ u₃ l₁ l₃ where
  registers := h'.registers.trans h.registers
  later := h.later.trans h'.later
  keeps := h.keeps.trans h'.keeps
  given b l hb := by
    rw [List.mem_append]
    rcases h'.given b l hb with hb | hb
    · exact (h.given b l hb).imp_right Or.inl
    · exact Or.inr (Or.inr hb)
  distinct := h.distinct.trans h'.distinct

/-- The label of a block: it has one afterwards, and no other block has got one. -/
theorem exists_label (entry : Label) (labels : Labels n) (b : Option (Fin n)) (u : Supply) :
    ∃ l labels' u', label labels b u = .ok (l, labels') u' ∧ labels'.lookup b = some l ∧
      Gives entry [b] u u' labels labels' := by
  cases hb : labels.lookup b with
  | some l =>
    refine ⟨l, labels, u, ?_, hb, rfl, .refl u, .refl labels, fun _ _ h => Or.inl h, fun _ => id⟩
    simp only [label, hb]
    rfl
  | none =>
    refine ⟨Label.generated (u.labels + 1), (b, Label.generated (u.labels + 1)) :: labels,
      { u with labels := u.labels + 1 }, ?_, ?_, rfl, ⟨Nat.le_refl _, Nat.le_succ _⟩, ?_, ?_, ?_⟩
    · simp only [label, hb]
      rfl
    · rw [lookup_cons, if_pos rfl]
    · intro b' l' h'
      rw [lookup_cons, if_neg]
      · exact h'
      · rintro rfl
        rw [hb] at h'
        cases h'
    · intro b' l' h'
      rw [lookup_cons] at h'
      split at h'
      · next e => exact Or.inr (List.mem_singleton.2 e)
      · exact Or.inl h'
    · exact fun hentry h => h.cons hentry b

/-! ## Pieces -/

/-- A block that was laid out. -/
structure Piece (n : Nat) where
  block : Fin n
  /-- The label in front of it. -/
  front : Option Label
  code : List Instr

/-- The items of a piece. -/
def Piece.items (p : Piece n) : Stream := p.front.toList.map Item.label ++ p.code.map Item.instr

/-- The stream of pieces. -/
def stream (pieces : List (Piece n)) : Stream := pieces.flatMap Piece.items

variable {g : Flow} {cover : Coverer}

/-- The call that covers a block whose successors have labels. -/
inductive CallOf (g : Flow) (cover : Coverer) (labels : Labels g.size) (i : Fin g.size)
    (code : List Instr) (u u' : Supply) : Prop
  | last {body : List Stmt} (hi : g.block i = .straight body none)
      (h : cover.sequence i body Label.none u = .ok code u')
  | next {body : List Stmt} {j : Fin g.size} {l : Label} (hi : g.block i = .straight body (some j))
      (hl : labels.lookup (some j) = some l) (h : cover.sequence i body l u = .ok code u')
  | branch {cond : Value} {t f : Option (Fin g.size)} {lt lf : Label}
      (hi : g.block i = .branch cond t f) (ht : labels.lookup t = some lt)
      (hf : labels.lookup f = some lf) (h : cover.branch i cond lt lf u = .ok code u')

theorem CallOf.mono {labels labels' : Labels g.size} {u u' : Supply} {i : Fin g.size}
    {code : List Instr} (h : CallOf g cover labels i code u u') (hl : Keeps labels labels') :
    CallOf g cover labels' i code u u' := by
  cases h with
  | last hi h => exact .last hi h
  | next hi hj h => exact .next hi (hl hj) h
  | branch hi ht hf h => exact .branch hi (hl ht) (hl hf) h

/-- The blocks are covered one after the other; between the calls labels are drawn, and
    nothing else. -/
inductive Calls (g : Flow) (cover : Coverer) (labels : Labels g.size) :
    Supply → List (Piece g.size) → Supply → Prop
  | nil (u : Supply) : Calls g cover labels u [] u
  | cons {u u₁ u₂ u' : Supply} {p : Piece g.size} {pieces : List (Piece g.size)}
      (hregisters : u₁.registers = u.registers) (hlabels : u.labels ≤ u₁.labels)
      (hcall : CallOf g cover labels p.block p.code u₁ u₂) (h : Calls g cover labels u₂ pieces u') :
    Calls g cover labels u (p :: pieces) u'

/-- The code of a block whose successors have labels, made by a call between two moments. -/
def CodeOf (g : Flow) (cover : Coverer) (labels : Labels g.size) (u u' : Supply) (i : Fin g.size)
    (code : List Instr) : Prop :=
  ∃ u₁ u₂, u.Later u₁ ∧ CallOf g cover labels i code u₁ u₂ ∧ u₂.Later u'

theorem CodeOf.mono {labels : Labels g.size} {u u' v : Supply} {i : Fin g.size} {code : List Instr}
    (h : CodeOf g cover labels u u' i code) (hu : v.Later u) : CodeOf g cover labels v u' i code := by
  obtain ⟨u₁, u₂, h₁, hcall, h₂⟩ := h
  exact ⟨u₁, u₂, hu.trans h₁, hcall, h₂⟩

/-- What a walk from the pending blocks lays out. -/
structure Laying (g : Flow) (cover : Coverer) (entry : Label) (pending : List (Pending g.size))
    (done : List (Fin g.size)) (labels labels' : Labels g.size) (u u' : Supply)
    (pieces : List (Piece g.size)) : Prop where
  later : u.Later u'
  keeps : Keeps labels labels'
  distinct : Parts entry u u' labels labels'
  /-- Labels are given to blocks that control continues with. -/
  given : ∀ b l, labels'.lookup b = some l →
    labels.lookup b = some l ∨ ∃ p ∈ pieces, b ∈ g.successors p.block
  /-- No block is laid out twice. -/
  once : (pieces.map Piece.block).Nodup
  new : ∀ p ∈ pieces, p.block ∉ done
  /-- The pending blocks are laid out now, unless they were before. -/
  reached : ∀ q ∈ pending, ∃ i, q.block = some i ∧ (i ∈ done ∨ i ∈ pieces.map Piece.block)
  /-- So are the successors of what is laid out. -/
  closed : ∀ p ∈ pieces, ∀ b ∈ g.successors p.block, ∃ i, b = some i ∧
    (i ∈ done ∨ i ∈ pieces.map Piece.block)
  /-- Nothing is laid out but what the pending blocks lead to. -/
  least : ∀ P : Fin g.size → Prop, (∀ q ∈ pending, ∀ i, q.block = some i → P i) →
    (∀ i j, P i → some j ∈ g.successors i → P j) → ∀ p ∈ pieces, P p.block
  calls : Calls g cover labels' u pieces u'
  covered : ∀ p ∈ pieces, CodeOf g cover labels' u u' p.block p.code
  /-- A block that was not pending has its label in front. -/
  fronts : ∀ p ∈ pieces, ⟨p.front, some p.block⟩ ∈ pending ∨
    ∃ l, p.front = some l ∧ labels'.lookup (some p.block) = some l
  /-- The first pending block comes first. -/
  first : ∀ q ∈ pending.head?, ∀ i, q.block = some i → i ∉ done →
    ∃ code rest, pieces = ⟨i, q.label, code⟩ :: rest

section
variable {rest : List (Pending g.size)} {done : List (Fin g.size)}
  {labels labels₁ labels₂ : Labels g.size} {u u₀ u₁ u₂ : Supply} {i : Fin g.size} {place : Option Label}
  {code : List Instr} {pieces : List (Piece g.size)}

theorem laying_nil : Laying g cover entry [] done labels labels u u [] where
  later := .refl u
  keeps := .refl labels
  distinct := fun _ => id
  given _ _ h := Or.inl h
  once := List.nodup_nil
  new _ h := by cases h
  reached _ h := by cases h
  closed _ h := by cases h
  least _ _ _ _ h := by cases h
  calls := .nil u
  covered _ h := by cases h
  fronts _ h := by cases h
  first _ h := by cases h

/-- A block that was laid out before is skipped. -/
theorem Laying.skip (hi : i ∈ done) (h : Laying g cover entry rest done labels labels₁ u u₁ pieces) :
    Laying g cover entry (⟨place, some i⟩ :: rest) done labels labels₁ u u₁ pieces where
  later := h.later
  keeps := h.keeps
  distinct := h.distinct
  given := h.given
  once := h.once
  new := h.new
  reached q hq := by
    rcases List.mem_cons.1 hq with rfl | hq
    · exact ⟨i, rfl, Or.inl hi⟩
    · exact h.reached q hq
  closed := h.closed
  least P hP := h.least P fun q hq => hP q (List.mem_cons_of_mem _ hq)
  calls := h.calls
  covered := h.covered
  fronts p hp := (h.fronts p hp).imp_left (List.mem_cons_of_mem _)
  first q hq j hj hdone := by
    cases Option.some.inj hq
    cases hj
    exact absurd hi hdone

/-- What was done when a block was laid out is the block and what was done before. -/
theorem mem_done_cons {j : Fin g.size} (h : j ∈ i :: done ∨ j ∈ pieces.map Piece.block) :
    j ∈ done ∨ j ∈ (⟨i, place, code⟩ :: pieces).map Piece.block := by
  rw [List.map_cons, List.mem_cons]
  rcases h with h | h
  · rcases List.mem_cons.1 h with rfl | h
    · exact Or.inr (Or.inl rfl)
    · exact Or.inl h
  · exact Or.inr (Or.inr h)

/-- A block is laid out, and then what it leads to and the rest. -/
theorem Laying.cons (ahead : List (Pending g.size)) (hi : i ∉ done)
    (hgives : Gives entry (g.successors i) u u₀ labels labels₁) (hlater : u₀.Later u₁)
    (hcall : CallOf g cover labels₁ i code u₀ u₁)
    (hahead : ∀ q ∈ ahead, ∃ l j, q = ⟨some l, some j⟩ ∧ labels₁.lookup (some j) = some l ∧
      some j ∈ g.successors i)
    (hsucc : ∀ b ∈ g.successors i, ∃ q ∈ ahead, q.block = b)
    (h : Laying g cover entry (ahead ++ rest) (i :: done) labels₁ labels₂ u₁ u₂ pieces) :
    Laying g cover entry (⟨place, some i⟩ :: rest) done labels labels₂ u u₂
      (⟨i, place, code⟩ :: pieces) where
  later := (hgives.later.trans hlater).trans h.later
  keeps := hgives.keeps.trans h.keeps
  distinct := (hgives.distinct.trans (parts_of_later hlater entry labels₁)).trans h.distinct
  given b l hb := by
    rcases h.given b l hb with hb | ⟨p, hp, hb⟩
    · exact (hgives.given b l hb).imp_right fun hb => ⟨_, List.mem_cons_self, hb⟩
    · exact Or.inr ⟨p, List.mem_cons_of_mem _ hp, hb⟩
  once := by
    refine List.nodup_cons.2 ⟨fun hmem => ?_, h.once⟩
    obtain ⟨p, hp, e⟩ := List.mem_map.1 hmem
    exact h.new p hp (e ▸ List.mem_cons_self)
  new p hp := by
    rcases List.mem_cons.1 hp with rfl | hp
    · exact hi
    · exact fun hdone => h.new p hp (List.mem_cons_of_mem _ hdone)
  reached q hq := by
    rcases List.mem_cons.1 hq with rfl | hq
    · exact ⟨i, rfl, Or.inr List.mem_cons_self⟩
    · obtain ⟨j, hj, hmem⟩ := h.reached q (List.mem_append_right _ hq)
      exact ⟨j, hj, mem_done_cons hmem⟩
  closed p hp b hb := by
    rcases List.mem_cons.1 hp with rfl | hp
    · obtain ⟨q, hq, rfl⟩ := hsucc b hb
      obtain ⟨j, hj, hmem⟩ := h.reached q (List.mem_append_left _ hq)
      exact ⟨j, hj, mem_done_cons hmem⟩
    · obtain ⟨j, hj, hmem⟩ := h.closed p hp b hb
      exact ⟨j, hj, mem_done_cons hmem⟩
  least P hP hstep p hp := by
    have hPi : P i := hP _ List.mem_cons_self i rfl
    rcases List.mem_cons.1 hp with rfl | hp
    · exact hPi
    · refine h.least P (fun q hq j hj => ?_) hstep p hp
      rcases List.mem_append.1 hq with hq | hq
      · obtain ⟨l, j', rfl, -, hsucc⟩ := hahead q hq
        cases hj
        exact hstep i _ hPi hsucc
      · exact hP q (List.mem_cons_of_mem _ hq) j hj
  calls := .cons hgives.registers hgives.later.labels (hcall.mono h.keeps) h.calls
  covered p hp := by
    rcases List.mem_cons.1 hp with rfl | hp
    · exact ⟨u₀, u₁, hgives.later, hcall.mono h.keeps, h.later⟩
    · exact (h.covered p hp).mono (hgives.later.trans hlater)
  fronts p hp := by
    rcases List.mem_cons.1 hp with rfl | hp
    · exact Or.inl List.mem_cons_self
    · rcases h.fronts p hp with hmem | hfront
      · rcases List.mem_append.1 hmem with hmem | hmem
        · obtain ⟨l, j, e, hl, -⟩ := hahead _ hmem
          obtain ⟨hfront, hblock⟩ := Pending.mk.inj e
          exact Or.inr ⟨l, hfront, hblock ▸ h.keeps hl⟩
        · exact Or.inl (List.mem_cons_of_mem _ hmem)
      · exact Or.inr hfront
  first q hq j hj _ := by
    cases Option.some.inj hq
    cases hj
    exact ⟨code, pieces, rfl⟩

/-- A block that leads nowhere. -/
theorem Laying.last {body : List Stmt} (hi : i ∉ done) (hblock : g.block i = .straight body none)
    (hcode : cover.sequence i body Label.none u = .ok code u₁) (hlater : u.Later u₁)
    (h : Laying g cover entry rest (i :: done) labels labels₂ u₁ u₂ pieces) :
    Laying g cover entry (⟨place, some i⟩ :: rest) done labels labels₂ u u₂
      (⟨i, place, code⟩ :: pieces) := by
  have hsucc : g.successors i = [] := by rw [Flow.successors, hblock]; rfl
  refine Laying.cons [] hi ?_ hlater (.last hblock hcode) (List.forall_mem_nil _) ?_ h
  · rw [hsucc]
    exact .refl entry u labels
  · rw [hsucc]
    exact List.forall_mem_nil _

/-- A block that leads to the next one. -/
theorem Laying.next {body : List Stmt} {j : Fin g.size} (hi : i ∉ done)
    (hblock : g.block i = .straight body (some j)) (hgives : Gives entry [some j] u u₀ labels labels₁)
    (hl : labels₁.lookup (some j) = some l) (hcode : cover.sequence i body l u₀ = .ok code u₁)
    (hlater : u₀.Later u₁)
    (h : Laying g cover entry (⟨some l, some j⟩ :: rest) (i :: done) labels₁ labels₂ u₁ u₂ pieces) :
    Laying g cover entry (⟨place, some i⟩ :: rest) done labels labels₂ u u₂
      (⟨i, place, code⟩ :: pieces) := by
  have hsucc : g.successors i = [some j] := by rw [Flow.successors, hblock]; rfl
  refine Laying.cons [⟨some l, some j⟩] hi (hsucc ▸ hgives) hlater (.next hblock hl hcode)
    (fun q hq => ?_) (fun b hb => ?_) h
  · exact ⟨l, j, List.mem_singleton.1 hq, hl, hsucc ▸ List.mem_singleton_self _⟩
  · rw [hsucc, List.mem_singleton] at hb
    exact ⟨_, List.mem_singleton_self _, hb.symm⟩

/-- A branch leads to its arms, the one for true first. -/
theorem Laying.branch {cond : Value} {t f : Fin g.size} {lt lf : Label} (hi : i ∉ done)
    (hblock : g.block i = .branch cond (some t) (some f))
    (hgives : Gives entry [some t, some f] u u₀ labels labels₁) (ht : labels₁.lookup (some t) = some lt)
    (hf : labels₁.lookup (some f) = some lf) (hcode : cover.branch i cond lt lf u₀ = .ok code u₁)
    (hlater : u₀.Later u₁)
    (h : Laying g cover entry (⟨some lt, some t⟩ :: ⟨some lf, some f⟩ :: rest) (i :: done) labels₁ labels₂
      u₁ u₂ pieces) :
    Laying g cover entry (⟨place, some i⟩ :: rest) done labels labels₂ u u₂
      (⟨i, place, code⟩ :: pieces) := by
  have hsucc : g.successors i = [some t, some f] := by rw [Flow.successors, hblock]; rfl
  refine Laying.cons [⟨some lt, some t⟩, ⟨some lf, some f⟩] hi (hsucc ▸ hgives) hlater
    (.branch hblock ht hf hcode) (fun q hq => ?_) (fun b hb => ?_) h
  · simp only [List.mem_cons, List.not_mem_nil, or_false] at hq
    rcases hq with rfl | rfl
    · exact ⟨lt, t, rfl, ht, by simp [hsucc]⟩
    · exact ⟨lf, f, rfl, hf, by simp [hsucc]⟩
  · simp only [hsucc, List.mem_cons, List.not_mem_nil, or_false] at hb
    rcases hb with rfl | rfl
    · exact ⟨_, List.mem_cons_self, rfl⟩
    · exact ⟨_, List.mem_cons_of_mem _ List.mem_cons_self, rfl⟩

end

/-- Covering a block of the graph draws from the supply. -/
structure Steady (cover : Coverer) (g : Flow) (known : Nat) : Prop where
  sequence : ∀ {i body next}, g.block i = .straight body next → ∀ {l u code u'},
    known ≤ u.registers → cover.sequence i body l u = .ok code u' → u.Later u'
  branch : ∀ {i cond t f}, g.block i = .branch cond t f → ∀ {lt lf u code u'},
    known ≤ u.registers → cover.branch i cond lt lf u = .ok code u' → u.Later u'

/-- **A walk that succeeds lays out the pending blocks and all they lead to.** -/
theorem laying_of_walk {known : Nat} (hcover : Steady cover g known) (entry : Label)
    (pending : List (Pending g.size)) (done : List (Fin g.size)) (labels : Labels g.size) :
    ∀ {u u' : Supply} {items : Stream} {labels' : Labels g.size}, known ≤ u.registers →
      walk g cover pending done labels u = .ok (items, labels') u' →
      ∃ pieces, items = stream pieces ∧ Laying g cover entry pending done labels labels' u u' pieces := by
  induction pending, done, labels using walk.induct with
  | case1 done labels =>
    intro u u' items labels' _ h
    rw [walk] at h
    cases h
    exact ⟨[], rfl, laying_nil⟩
  | case2 done labels label tail =>
    intro u u' items labels' _ h
    rw [walk] at h
    cases h
  | case3 done labels place i rest hi ih =>
    intro u u' items labels' hu h
    rw [walk, dif_pos hi] at h
    obtain ⟨pieces, rfl, hlay⟩ := ih hu h
    exact ⟨pieces, rfl, hlay.skip hi⟩
  | case4 done labels place i rest hi body hblock ih =>
    intro u u' items labels' hu h
    rw [walk, dif_neg hi] at h
    simp only [hblock] at h
    obtain ⟨code, u₁, hcode, h⟩ := EStateM.bind_eq_ok.1 h
    obtain ⟨⟨items₁, labels₁⟩, u₂, hwalk, h⟩ := EStateM.bind_eq_ok.1 h
    cases h
    have hlater := hcover.sequence hblock hu hcode
    obtain ⟨pieces, rfl, hlay⟩ := ih (Nat.le_trans hu hlater.registers) hwalk
    exact ⟨⟨i, place, code⟩ :: pieces, rfl, hlay.last hi hblock hcode hlater⟩
  | case5 done labels place i rest hi body j hblock ih =>
    intro u u' items labels' hu h
    obtain ⟨l, labels₁, u₁, hlabel, hl, hgives⟩ := exists_label entry labels (some j) u
    rw [walk, dif_neg hi] at h
    simp only [hblock] at h
    obtain ⟨⟨l', labels₁'⟩, u₁', hlabel', h⟩ := EStateM.bind_eq_ok.1 h
    cases hlabel.symm.trans hlabel'
    obtain ⟨code, u₂, hcode, h⟩ := EStateM.bind_eq_ok.1 h
    obtain ⟨⟨items₁, labels₂⟩, u₃, hwalk, h⟩ := EStateM.bind_eq_ok.1 h
    cases h
    have hlater := hcover.sequence hblock (hgives.registers ▸ hu) hcode
    obtain ⟨pieces, rfl, hlay⟩ := ih l labels₁ (Nat.le_trans hu (hgives.later.trans hlater).registers) hwalk
    exact ⟨⟨i, place, code⟩ :: pieces, rfl, hlay.next hi hblock hgives hl hcode hlater⟩
  | case6 done labels place i rest hi cond t f hblock ih =>
    intro u u' items labels' hu h
    obtain ⟨lt, labels₁, u₁, hlabel₁, ht, hgives₁⟩ := exists_label entry labels t u
    obtain ⟨lf, labels₂, u₂, hlabel₂, hf, hgives₂⟩ := exists_label entry labels₁ f u₁
    have hgives : Gives entry [t, f] u u₂ labels labels₂ := hgives₁.append hgives₂
    rw [walk, dif_neg hi] at h
    simp only [hblock] at h
    obtain ⟨⟨lt', labels₁'⟩, u₁', hlabel₁', h⟩ := EStateM.bind_eq_ok.1 h
    cases hlabel₁.symm.trans hlabel₁'
    obtain ⟨⟨lf', labels₂'⟩, u₂', hlabel₂', h⟩ := EStateM.bind_eq_ok.1 h
    cases hlabel₂.symm.trans hlabel₂'
    obtain ⟨code, u₃, hcode, h⟩ := EStateM.bind_eq_ok.1 h
    obtain ⟨⟨items₁, labels₃⟩, u₄, hwalk, h⟩ := EStateM.bind_eq_ok.1 h
    cases h
    have hlater := hcover.branch hblock (Nat.le_trans hu hgives.later.registers) hcode
    obtain ⟨pieces, rfl, hlay⟩ :=
      ih lt lf labels₂ (Nat.le_trans hu (hgives.later.trans hlater).registers) hwalk
    -- the walk went on, so the arms are there
    obtain ⟨jt, e, -⟩ := hlay.reached _ List.mem_cons_self
    obtain ⟨jf, e', -⟩ := hlay.reached _ (List.mem_cons_of_mem _ List.mem_cons_self)
    simp only at e e'
    subst e e'
    exact ⟨⟨i, place, code⟩ :: pieces, rfl,
      hlay.branch hi hblock hgives (hgives₂.keeps ht) hf hcode hlater⟩

/-- The coverer covers every block that control can get to, whatever labels it is
    given. -/
structure Total (cover : Coverer) (g : Flow) (known : Nat) : Prop where
  sequence : ∀ {i body next}, g.Reached i → g.block i = .straight body next →
    ∀ (l : Label) (u : Supply), known ≤ u.registers → ∃ code u', cover.sequence i body l u = .ok code u'
  branch : ∀ {i cond t f}, g.Reached i → g.block i = .branch cond t f →
    ∀ (lt lf : Label) (u : Supply), known ≤ u.registers → ∃ code u', cover.branch i cond lt lf u = .ok code u'

/-- A walk over blocks that can be covered succeeds. -/
theorem exists_walk {known : Nat} (hsteady : Steady cover g known) (hcover : Total cover g known)
    (harms : g.HasArms) (pending : List (Pending g.size)) (done : List (Fin g.size))
    (labels : Labels g.size) :
    ∀ u : Supply, known ≤ u.registers → (∀ q ∈ pending, ∃ i, q.block = some i ∧ g.Reached i) →
      ∃ items labels' u', walk g cover pending done labels u = .ok (items, labels') u' := by
  induction pending, done, labels using walk.induct with
  | case1 done labels =>
    intro u _ _
    exact ⟨[], labels, u, by rw [walk]; rfl⟩
  | case2 done labels label tail =>
    intro u _ h
    obtain ⟨i, hi, -⟩ := h _ List.mem_cons_self
    cases hi
  | case3 done labels place i rest hi ih =>
    intro u hu h
    obtain ⟨items, labels', u', hwalk⟩ := ih u hu fun q hq => h q (List.mem_cons_of_mem _ hq)
    exact ⟨items, labels', u', by rw [walk, dif_pos hi]; exact hwalk⟩
  | case4 done labels place i rest hi body hblock ih =>
    intro u hu h
    obtain ⟨_, e, hreached⟩ := h _ List.mem_cons_self
    cases e
    obtain ⟨code, u₁, hcode⟩ := hcover.sequence hreached hblock Label.none u hu
    have hlater := hsteady.sequence hblock hu hcode
    obtain ⟨items, labels', u', hwalk⟩ := ih u₁ (Nat.le_trans hu hlater.registers)
      fun q hq => h q (List.mem_cons_of_mem _ hq)
    refine ⟨(Piece.mk i place code).items ++ items, labels', u', ?_⟩
    rw [walk, dif_neg hi]
    simp only [hblock]
    exact EStateM.bind_eq_ok.2 ⟨_, _, hcode, EStateM.bind_eq_ok.2 ⟨_, _, hwalk, rfl⟩⟩
  | case5 done labels place i rest hi body j hblock ih =>
    intro u hu h
    obtain ⟨_, e, hreached⟩ := h _ List.mem_cons_self
    cases e
    obtain ⟨l, labels₁, u₁, hlabel, -, hgives⟩ := exists_label Label.none labels (some j) u
    obtain ⟨code, u₂, hcode⟩ := hcover.sequence hreached hblock l u₁ (hgives.registers ▸ hu)
    have hlater := hsteady.sequence hblock (hgives.registers ▸ hu) hcode
    obtain ⟨items, labels', u', hwalk⟩ := ih l labels₁ u₂
      (Nat.le_trans hu (hgives.later.trans hlater).registers) fun q hq => by
        rcases List.mem_cons.1 hq with rfl | hq
        · exact ⟨j, rfl, hreached.step ((Flow.mem_successors_straight hblock).2 rfl)⟩
        · exact h q (List.mem_cons_of_mem _ hq)
    refine ⟨(Piece.mk i place code).items ++ items, labels', u', ?_⟩
    rw [walk, dif_neg hi]
    simp only [hblock]
    exact EStateM.bind_eq_ok.2 ⟨_, _, hlabel, EStateM.bind_eq_ok.2 ⟨_, _, hcode,
      EStateM.bind_eq_ok.2 ⟨_, _, hwalk, rfl⟩⟩⟩
  | case6 done labels place i rest hi cond t f hblock ih =>
    intro u hu h
    obtain ⟨_, e, hreached⟩ := h _ List.mem_cons_self
    cases e
    have hsucc : ∀ b, b = t ∨ b = f → ∃ j, b = some j ∧ g.Reached j := by
      intro b hb
      obtain ⟨ht, hf⟩ := harms i (Flow.mem_reachable.2 hreached) cond t f hblock
      obtain ⟨j, rfl⟩ : ∃ j, b = some j := by
        rcases hb with rfl | rfl
        · exact Option.isSome_iff_exists.1 ht
        · exact Option.isSome_iff_exists.1 hf
      exact ⟨j, rfl, hreached.step ((Flow.mem_successors_branch hblock).2 (hb.imp Eq.symm Eq.symm))⟩
    obtain ⟨lt, labels₁, u₁, hlabel₁, -, hgives₁⟩ := exists_label Label.none labels t u
    obtain ⟨lf, labels₂, u₂, hlabel₂, -, hgives₂⟩ := exists_label Label.none labels₁ f u₁
    have hu₂ := Nat.le_trans hu (hgives₁.later.trans hgives₂.later).registers
    obtain ⟨code, u₃, hcode⟩ := hcover.branch hreached hblock lt lf u₂ hu₂
    have hlater₃ := hsteady.branch hblock hu₂ hcode
    obtain ⟨items, labels', u', hwalk⟩ := ih lt lf labels₂ u₃ (Nat.le_trans hu₂ hlater₃.registers)
      fun q hq => by
        simp only [List.mem_cons] at hq
        rcases hq with rfl | rfl | hq
        · exact hsucc _ (Or.inl rfl)
        · exact hsucc _ (Or.inr rfl)
        · exact h q (List.mem_cons_of_mem _ hq)
    refine ⟨(Piece.mk i place code).items ++ items, labels', u', ?_⟩
    rw [walk, dif_neg hi]
    simp only [hblock]
    exact EStateM.bind_eq_ok.2 ⟨_, _, hlabel₁, EStateM.bind_eq_ok.2 ⟨_, _, hlabel₂,
      EStateM.bind_eq_ok.2 ⟨_, _, hcode, EStateM.bind_eq_ok.2 ⟨_, _, hwalk, rfl⟩⟩⟩⟩

/-- The pieces of a whole graph: each has its label in front, if it has one. -/
structure Arranged (g : Flow) (cover : Coverer) (entry : Label) (labels : Labels g.size)
    (u u' : Supply) (pieces : List (Piece g.size)) : Prop where
  later : u.Later u'
  once : (pieces.map Piece.block).Nodup
  fronts : ∀ p ∈ pieces, p.front = labels.lookup (some p.block)
  closed : ∀ p ∈ pieces, ∀ b ∈ g.successors p.block, ∃ i, b = some i ∧ i ∈ pieces.map Piece.block
  reached : ∀ p ∈ pieces, g.Reached p.block
  calls : Calls g cover labels u pieces u'
  covered : ∀ p ∈ pieces, CodeOf g cover labels u u' p.block p.code
  /-- The root has the entry label, if there is one. -/
  entered : entry ≠ Label.none → labels.lookup g.root = some entry
  /-- A label is the entry label, or that of a block that control continues with. -/
  given : ∀ b l, labels.lookup b = some l →
    entry ≠ Label.none ∧ b = g.root ∨ ∃ p ∈ pieces, b ∈ g.successors p.block
  first : ∃ root, g.root = some root ∧ ∃ p rest, pieces = p :: rest ∧ p.block = root

/-- Pieces with labels that are all different. -/
structure LaidOut (g : Flow) (cover : Coverer) (entry : Label) (labels : Labels g.size)
    (u u' : Supply) (pieces : List (Piece g.size)) : Prop
    extends Arranged g cover entry labels u u' pieces where
  distinct : Distinct entry u'.labels labels

/-- A graph whose blocks can be covered can be laid out. -/
theorem exists_layout {known : Nat} (hsteady : Steady cover g known) (hcover : Total cover g known)
    (harms : g.HasArms) (hroot : g.root.isSome = true) (entry : Label) {u : Supply}
    (hu : known ≤ u.registers) : ∃ items u', g.layout cover entry u = .ok items u' := by
  obtain ⟨root, hroot⟩ := Option.isSome_iff_exists.1 hroot
  obtain ⟨items, labels, u', hwalk⟩ := exists_walk hsteady hcover harms [⟨none, g.root⟩] []
    (if entry = Label.none then [] else [(g.root, entry)]) u hu
    (fun q hq => ⟨root, by rw [List.mem_singleton.1 hq]; exact hroot, 0, .root hroot⟩)
  unfold Flow.layout
  cases hl : labels.lookup g.root with
  | none => exact ⟨_, u', EStateM.bind_eq_ok.2 ⟨_, u', hwalk, by simp only [hl]; rfl⟩⟩
  | some l => exact ⟨_, u', EStateM.bind_eq_ok.2 ⟨_, u', hwalk, by simp only [hl]; rfl⟩⟩

/-- The labels that a walk starts with. -/
theorem lookup_start {entry l : Label} {b : Option (Fin g.size)}
    (h : (if entry = Label.none then [] else [(g.root, entry)] : Labels g.size).lookup b = some l) :
    entry ≠ Label.none ∧ b = g.root ∧ l = entry := by
  split at h
  · cases h
  · next hne =>
    rw [lookup_cons] at h
    split at h
    · next e => cases h; exact ⟨hne, e, rfl⟩
    · cases h

/-- **A graph that was laid out consists of pieces**, and their labels are all different
    if the entry label is not one that can be drawn. -/
theorem arranged_of_layout {known : Nat} (hcover : Steady cover g known) {u u' : Supply}
    {items : Stream} (hu : known ≤ u.registers) (hlayout : g.layout cover entry u = .ok items u') :
    ∃ pieces labels, items = stream pieces ∧ Arranged g cover entry labels u u' pieces ∧
      ((∀ k, entry ≠ Label.generated k) → Distinct entry u'.labels labels) := by
  obtain ⟨⟨items₀, labels⟩, u₁, hwalk, hfront⟩ := EStateM.bind_eq_ok.1 hlayout
  obtain ⟨pieces, rfl, h⟩ := laying_of_walk hcover entry _ _ _ hu hwalk
  obtain ⟨root, hroot, -⟩ := h.reached _ List.mem_cons_self
  simp only at hroot
  obtain ⟨code, rest, rfl⟩ := h.first _ rfl root hroot (by simp)
  have hstart : Distinct entry u.labels
      (if entry = Label.none then [] else [(g.root, entry)] : Labels g.size) := by
    refine ⟨fun h₁ h₂ => (lookup_start h₁).2.1.trans (lookup_start h₂).2.1.symm, fun hl => ?_,
      fun hl => Or.inl (lookup_start hl).2.2⟩
    rw [(lookup_start hl).2.2]
    exact (lookup_start hl).1
  obtain ⟨hitems, rfl⟩ : items = stream (⟨root, labels.lookup (some root), code⟩ :: rest) ∧ u₁ = u' := by
    simp only [hroot] at hfront
    cases hl : labels.lookup (some root) <;> simp only [hl] at hfront <;> cases hfront <;>
      exact ⟨rfl, rfl⟩
  -- the piece of the root has got its label now
  have hpieces : ∀ p ∈ (⟨root, labels.lookup (some root), code⟩ :: rest : List (Piece g.size)),
      ∃ p' ∈ (⟨root, none, code⟩ :: rest : List (Piece g.size)), p'.block = p.block ∧ p'.code = p.code := by
    intro p hp
    rcases List.mem_cons.1 hp with rfl | hp
    · exact ⟨_, List.mem_cons_self, rfl, rfl⟩
    · exact ⟨p, List.mem_cons_of_mem _ hp, rfl, rfl⟩
  refine ⟨⟨root, labels.lookup (some root), code⟩ :: rest, labels, hitems, ?_,
    fun hentry => h.distinct hentry hstart⟩
  refine ⟨h.later, h.once, ?_, ?_, ?_, ?_, ?_, ?_, ?_, root, hroot, _, _, rfl, rfl⟩
  · intro p hp
    rcases List.mem_cons.1 hp with rfl | hp
    · rfl
    · rcases h.fronts p (List.mem_cons_of_mem _ hp) with hmem | ⟨l, hfront, hl⟩
      · -- only the root was pending, and it was laid out first
        have hblock : p.block = root := by
          have := (Pending.mk.inj (List.mem_singleton.1 hmem)).2
          rw [hroot] at this
          exact Option.some.inj this
        have hmem : p.block ∈ rest.map Piece.block := List.mem_map_of_mem hp
        rw [hblock] at hmem
        exact absurd hmem (List.nodup_cons.1 h.once).1
      · rw [hfront, hl]
  · intro p hp b hb
    obtain ⟨p', hp', e, -⟩ := hpieces p hp
    obtain ⟨i, hi, hmem⟩ := h.closed p' hp' b (e ▸ hb)
    exact ⟨i, hi, hmem.resolve_left (by simp)⟩
  · intro p hp
    obtain ⟨p', hp', e, -⟩ := hpieces p hp
    rw [← e]
    refine h.least g.Reached (fun q hq i hi => ⟨0, .root ?_⟩) (fun _ _ => Flow.Reached.step) p' hp'
    rw [List.mem_singleton.1 hq] at hi
    exact hi
  · cases h.calls with
    | cons hregisters hlabels hcall hrest => exact .cons hregisters hlabels hcall hrest
  · intro p hp
    obtain ⟨p', hp', e, hcode⟩ := hpieces p hp
    rw [← e, ← hcode]
    exact h.covered p' hp'
  · intro hne
    refine h.keeps ?_
    rw [if_neg hne, lookup_cons, if_pos rfl]
  · intro b l hb
    rcases h.given b l hb with hb | ⟨p, hp, hb⟩
    · exact Or.inl ⟨(lookup_start hb).1, (lookup_start hb).2.1⟩
    · rcases List.mem_cons.1 hp with rfl | hp
      · exact Or.inr ⟨_, List.mem_cons_self, hb⟩
      · exact Or.inr ⟨p, List.mem_cons_of_mem _ hp, hb⟩

/-- **A graph that was laid out consists of pieces with different labels.** -/
theorem laidOut_of_layout {known : Nat} (hcover : Steady cover g known)
    (hentry : ∀ k, entry ≠ Label.generated k) {u u' : Supply} {items : Stream} (hu : known ≤ u.registers)
    (hlayout : g.layout cover entry u = .ok items u') :
    ∃ pieces labels, items = stream pieces ∧ LaidOut g cover entry labels u u' pieces := by
  obtain ⟨pieces, labels, hitems, h, hdistinct⟩ := arranged_of_layout hcover hu hlayout
  exact ⟨pieces, labels, hitems, h, hdistinct hentry⟩

/-! ## Places -/

namespace Arranged

variable {labels : Labels g.size} {u u' : Supply} {pieces : List (Piece g.size)} {p : Piece g.size}

/-- The labels of the stream are the labels of its pieces. -/
theorem labels_flatMap (pieces : List (Piece g.size)) :
    (stream pieces).filterMap Item.label? = pieces.filterMap Piece.front := by
  induction pieces with
  | nil => rfl
  | cons p pieces ih =>
    have hcode : (p.code.map Item.instr).filterMap Item.label? = [] := by
      simp [List.filterMap_map, Function.comp_def, Item.label?]
    rw [stream, List.flatMap_cons, List.filterMap_append, ← stream, ih, Piece.items, List.filterMap_append, hcode]
    cases hf : p.front <;> simp [hf, Item.label?]

/-- A piece stands somewhere in the stream, its code right behind its label. -/
theorem exists_position (hp : p ∈ pieces) :
    ∃ q, (stream pieces).At q p.code ∧
      ∀ l, p.front = some l → ∃ k, q = k + 1 ∧ (stream pieces)[k]? = some (.label l) := by
  obtain ⟨l₁, l₂, rfl⟩ := List.append_of_mem hp
  have e : stream (l₁ ++ p :: l₂) = (l₁.flatMap Piece.items ++ p.front.toList.map Item.label) ++
      (p.code.map Item.instr ++ l₂.flatMap Piece.items) := by
    simp [stream, Piece.items]
  refine ⟨(l₁.flatMap Piece.items ++ p.front.toList.map Item.label).length, ?_, fun l hl => ?_⟩
  · rw [Stream.At, e, List.drop_left]
    exact List.prefix_append _ _
  · refine ⟨(l₁.flatMap Piece.items).length, by simp [hl], ?_⟩
    rw [e, hl]
    simp

/-- The label of a block stands in front of its code. -/
theorem exists_next (h : Arranged g cover entry labels u u' pieces)
    {j : Fin g.size} {l : Label} (hj : j ∈ pieces.map Piece.block) (hl : labels.lookup (some j) = some l) :
    ∃ p ∈ pieces, p.block = j ∧ ∃ k, (stream pieces).At (k + 1) p.code ∧
      (stream pieces)[k]? = some (.label l) := by
  obtain ⟨p, hp, rfl⟩ := List.mem_map.1 hj
  obtain ⟨q, hq, hlabel⟩ := exists_position hp
  obtain ⟨k, rfl, hk⟩ := hlabel l ((h.fronts p hp).trans hl)
  exact ⟨p, hp, rfl, k, hq, hk⟩

theorem label_mem_stream (h : Arranged g cover entry labels u u' pieces)
    {j : Fin g.size} {l : Label} (hj : j ∈ pieces.map Piece.block)
    (hl : labels.lookup (some j) = some l) : .label l ∈ stream pieces := by
  obtain ⟨-, -, -, k, -, hk⟩ := h.exists_next hj hl
  exact List.mem_of_getElem? hk

theorem mem_instructions_stream {i : Instr} (hi : i ∈ (stream pieces).instructions) :
    ∃ p ∈ pieces, i ∈ p.code := by
  obtain ⟨item, hitem, e⟩ := List.mem_filterMap.1 hi
  obtain ⟨p, hp, hitem⟩ := List.mem_flatMap.1 hitem
  refine ⟨p, hp, ?_⟩
  rcases List.mem_append.1 hitem with hitem | hitem
  · obtain ⟨l, -, rfl⟩ := List.mem_map.1 hitem
    cases e
  · obtain ⟨i', hi', rfl⟩ := List.mem_map.1 hitem
    cases e
    exact hi'

end Arranged

/-- No label stands twice in the stream. -/
theorem LaidOut.nodup_labels {labels : Labels g.size} {pieces : List (Piece g.size)}
    (h : LaidOut g cover entry labels u u' pieces) :
    ((stream pieces).filterMap Item.label?).Nodup := by
  have e : pieces.filterMap Piece.front =
      (pieces.map Piece.block).filterMap fun i => labels.lookup (some i) := by
    rw [List.filterMap_map]
    exact List.filterMap_congr h.fronts
  rw [Arranged.labels_flatMap, e]
  refine h.once.filterMap fun i j l hi hj => ?_
  exact Option.some.inj (h.distinct.injective hi hj)

end Layout

end Codegen
