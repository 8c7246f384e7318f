/-
  A clean lint means that the allocation is correct.

  * An allocation without issues is `Checked`: it gives every register of the
    stream a place, physical registers their own, and no two registers that are
    live together the same one.
  * The renamed stream then follows the original one step by step
    (`Checked.step`), where the machines agree on what is live at the position
    that control has reached.
  * So a run of the renamed stream returns if one of the original does, with the
    same memory and results (`lint_sound`).
-/
import Codegen.Lint
import Codegen.Proofs.Liveness.Interference
import Codegen.Proofs.Machine.Runs

namespace Codegen

namespace Lint

variable {items : Stream} {a : Allocation} {palette : List Physical} {r : Register}

/-! ## What the checks say -/

/-- Every register mentioned has a first mention. -/
theorem exists_firstMention (h : r ∈ items.registers) : ∃ u ∈ firstMentions items, u.register = r := by
  have key : ∀ us seen : List Mention,
      (∃ u ∈ us, u.register = r) ∨ (∃ u ∈ seen, u.register = r) →
        ∃ u ∈ List.eraseDupsBy.loop (fun a b : Mention => decide (a.register = b.register)) us seen,
          u.register = r := by
    intro us
    induction us with
    | nil =>
      rintro seen (⟨u, hu, -⟩ | ⟨u, hu, e⟩)
      · cases hu
      · exact ⟨u, List.mem_reverse.2 hu, e⟩
    | cons x us ih =>
      intro seen h
      rw [List.eraseDupsBy.loop]
      cases hx : seen.any fun b => decide (x.register = b.register) with
      | true =>
        refine ih seen ?_
        rcases h with ⟨u, hu, e⟩ | h
        · rcases List.mem_cons.1 hu with rfl | hu
          · obtain ⟨v, hv, ev⟩ := List.any_eq_true.1 hx
            exact Or.inr ⟨v, hv, (of_decide_eq_true ev).symm.trans e⟩
          · exact Or.inl ⟨u, hu, e⟩
        · exact Or.inr h
      | false =>
        refine ih (x :: seen) ?_
        rcases h with ⟨u, hu, e⟩ | ⟨u, hu, e⟩
        · rcases List.mem_cons.1 hu with rfl | hu
          · exact Or.inr ⟨u, List.mem_cons_self, e⟩
          · exact Or.inl ⟨u, hu, e⟩
        · exact Or.inr ⟨u, List.mem_cons_of_mem _ hu, e⟩
  obtain ⟨i, hi, hr⟩ := List.mem_flatMap.1 (List.mem_eraseDups.1 h)
  obtain ⟨item, hitem, e⟩ := List.mem_filterMap.1 hi
  obtain ⟨k, hk⟩ := List.mem_iff_getElem?.1 hitem
  refine key _ _ (Or.inl ⟨⟨r, k, i⟩, ?_, rfl⟩)
  refine List.mem_flatMap.2 ⟨(item, k), List.mem_zipIdx_iff_getElem?.2 hk, ?_⟩
  simp only [e]
  exact List.mem_map.2 ⟨r, List.mem_eraseDups.2 hr, rfl⟩

theorem lookup_of_checkMapping (h : checkMapping items a palette = []) (hr : r ∈ items.registers) :
    ∃ p, a.lookup r = some p ∧ ∀ q : Physical, r = q → p = q := by
  obtain ⟨u, hu, rfl⟩ := exists_firstMention hr
  have hnone := List.filterMap_eq_nil_iff.1 h u hu
  unfold checkRegister at hnone
  cases hp : a.lookup u.register with
  | none => rw [hp] at hnone; cases hnone
  | some p =>
    refine ⟨p, rfl, fun q hq => ?_⟩
    rw [hp, hq] at hnone
    by_contra hne
    simp only [if_neg hne] at hnone
    cases hnone

theorem lookup_ne_of_checkEdge {e : Register × Register} {p : Physical} (h : checkEdge a e = none)
    (hp : a.lookup e.1 = some p) : a.lookup e.2 ≠ some p := by
  intro hp'
  simp only [checkEdge, hp, hp', if_true] at h
  cases h

end Lint

/-- An allocation that fits a stream, where `live` solves the liveness equations. -/
structure Checked (items : Stream) (a : Allocation) (conflict : Graph)
    (live : Nat → Register → Prop) : Prop where
  solves : Liveness.Solves items conflict live
  /-- Every register mentioned has a place, a physical one its own. -/
  placed : ∀ {r}, r ∈ items.registers → ∃ p, a.lookup r = some p ∧ ∀ q : Physical, r = q → p = q
  /-- Registers that interfere have different places. -/
  apart : ∀ {x y p}, conflict.linked x y = true → a.lookup x = some p → a.lookup y ≠ some p

/-- **An allocation without issues fits its stream.** -/
theorem checked_of_lint {items : Stream} {a : Allocation} {palette : List Physical}
    (h : lint items a palette = .ok []) : ∃ conflict live, Checked items a conflict live := by
  unfold lint at h
  by_cases hlabels : (Lint.checkLabels items).isEmpty = true
  · simp only [hlabels, if_true] at h
    obtain ⟨issues, hissues, h⟩ := Except.bind_eq_ok.1 h
    obtain ⟨result, hresult, e⟩ := Except.bind_eq_ok.1 hissues
    obtain ⟨hmapping, rfl⟩ := List.append_eq_nil_iff.1 (Except.ok.inj h)
    have hedges := List.filterMap_eq_nil_iff.1 (Except.ok.inj e)
    obtain ⟨live, hlive⟩ := Liveness.analyze_solves hresult
    refine ⟨_, live, hlive, Lint.lookup_of_checkMapping hmapping, fun {x y p} hxy hx hy => ?_⟩
    rcases Graph.mem_edgeList_of_linked hxy with hmem | hmem
    · exact Lint.lookup_ne_of_checkEdge (hedges _ hmem) hx hy
    · exact Lint.lookup_ne_of_checkEdge (hedges _ hmem) hy hx
  · simp only [hlabels] at h
    have := (List.append_eq_nil_iff.1 (Except.ok.inj h)).2
    rw [this] at hlabels
    exact absurd rfl hlabels

/-! ## The renamed stream -/

theorem Exec.firstInstr_map (f : Register → Register) (p : Nat) (items : Stream) :
    firstInstr p (items.map (Item.mapRegisters f)) =
      (firstInstr p items).map fun (i, k) => (i.mapRegisters f, k) := by
  induction items generalizing p with
  | nil => rfl
  | cons item items ih =>
    cases item with
    | label l => exact ih (p + 1)
    | stray r => exact ih (p + 1)
    | instr i => rfl

section
variable {items : Stream} {a : Allocation} {conflict : Graph} {live : Nat → Register → Prop}
  {m m' n : Machine} {i : Instr} {k j p : Nat} {r : Register}

theorem Allocation.rename_of_lookup {q : Physical} (h : a.lookup r = some q) : a.rename r = q := by
  rw [rename, h]

namespace Checked

variable (hc : Checked items a conflict live)
include hc

theorem rename_eq (hr : r ∈ items.registers) (hp : r.isPhysical = true) : a.rename r = r := by
  obtain ⟨p, hlook, hown⟩ := hc.placed hr
  cases r with
  | virtual id => cases hp
  | physical q => rw [Allocation.rename_of_lookup hlook, hown q rfl]

theorem steady (hk : items[k]? = some (.instr i)) (hi : i.Conventional) :
    Exec.Steady a.rename i := by
  refine hi.steady fun r hr hp => hc.rename_eq ?_ hp
  rcases List.mem_append.1 hr with hr | hr
  · exact Stream.uses_subset_registers hk hr
  · exact Stream.defines_subset_registers hk hr

/-- What is live later does not share its place with what is defined now, unless
    it is copied there. -/
theorem spares (hk : items[k]? = some (.instr i)) (hlead : items.Leads k j) (hr : live j r)
    (hdef : r ∉ i.defines) :
    live k r ∧ ∀ d ∈ i.defines, a.rename r = a.rename d → i.copy? = some (d, r) := by
  refine ⟨hc.solves.keeps hlead hr fun i' hi' => ?_, fun d hd hsame => ?_⟩
  · rw [hk] at hi'
    cases hi'
    exact hdef
  · by_contra hcopy
    have hcopy' : ∀ d', i.copy? ≠ some (d', r) := fun d' e => by
      rw [Instr.defines_of_copy? e, List.mem_singleton] at hd
      exact hcopy (hd ▸ e)
    have hne : r ≠ d := fun e => hdef (e ▸ hd)
    have hlink := hc.solves.apart hk hlead hr hd hne hcopy'
    obtain ⟨p, hp, -⟩ := hc.placed (Stream.defines_subset_registers hk hd)
    obtain ⟨q, hq, -⟩ := hc.placed (hc.solves.mentioned hr)
    rw [Allocation.rename_of_lookup hp, Allocation.rename_of_lookup hq] at hsame
    cases hsame
    exact hc.apart hlink hp hq

/-- What is live at an instruction is live at the labels before it. -/
theorem live_of_skip (hpk : p ≤ k)
    (hskip : ∀ j, p ≤ j → j < k → ∃ item, items[j]? = some item ∧ item.instr? = none)
    (hr : live k r) : live p r := by
  have key : ∀ t, p + t ≤ k → live (p + t) r → live p r := by
    intro t
    induction t with
    | zero => exact fun _ h => h
    | succ t ih =>
      intro ht h
      obtain ⟨item, hitem, hnone⟩ := hskip (p + t) (by omega) (by omega)
      refine ih (by omega) ?_
      cases item with
      | label l =>
        exact hc.solves.keeps (.skips hitem) h fun i hi => by rw [hitem] at hi; cases hi
      | instr i => cases hnone
      | stray q => exact absurd hitem hc.solves.clean
  exact key (k - p) (by omega) (by rwa [show p + (k - p) = k by omega])

end Checked

/-! ## Runs -/

/-- What a machine still needs: the registers that are live, and after a return
    its results. -/
def Needed (items : Stream) (live : Nat → Register → Prop) (m : Machine) (r : Register) : Prop :=
  if m.returned = true then
    ∃ k results, m.position = k + 1 ∧ items[k]? = some (.instr (.ret results)) ∧ r ∈ results
  else live m.position r

/-- The second machine has followed the first one. -/
structure Follows (items : Stream) (a : Allocation) (live : Nat → Register → Prop)
    (m m' : Machine) : Prop where
  original : m.items = items
  renamed : m'.items = a.apply items
  labels : Exec.Placed items m.labels
  ended : m.returned = true →
    ∃ k results, m.position = k + 1 ∧ items[k]? = some (.instr (.ret results))
  agree : Agree (.ofRename a.rename) (Needed items live m) [] m m'

theorem Agree.fetch {f : Register → Register} {S S' : Register → Prop} {mems : List Mem}
    (h : Agree (.ofRename f) S [] m m') (hS : ∀ r, S' r → S r) (k : Nat) :
    Agree (.ofRename f) S' mems (m.fetch k) (m'.fetch k) :=
  { h with position := rfl, reads := fun hr => h.reads (hS _ hr), safe := Exec.near_of_forall (fun _ => trivial) _ _ }

/-- **The renamed stream follows one step.** -/
theorem Checked.step (hc : Checked items a conflict live)
    (hconv : ∀ i ∈ items.instructions, i.Conventional) (h : Follows items a live m m')
    (hs : m.Step n) : ∃ n', m'.Step n' ∧ Follows items a live n n' := by
  obtain ⟨hitems, -, hlabels, -⟩ := hs.frame
  obtain ⟨hret, i, k, hnext, e⟩ := hs
  rw [h.original] at hnext
  obtain ⟨hle, hk, hskip⟩ := Exec.firstInstr_eq_some hnext
  simp only [List.getElem?_drop, Nat.add_sub_cancel' hle] at hk
  have hskip : ∀ j, m.position ≤ j → j < k → ∃ item, items[j]? = some item ∧ item.instr? = none := by
    intro j hj hjk
    obtain ⟨item, hitem, hnone⟩ := hskip j hj hjk
    rw [List.getElem?_drop, Nat.add_sub_cancel' hj] at hitem
    exact ⟨item, hitem, hnone⟩
  have hnext' : Exec.firstInstr m'.position (m'.items.drop m'.position) =
      some (i.mapRegisters a.rename, k) := by
    have hpos : m.position = m'.position := h.agree.position
    rw [← hpos, h.renamed, Allocation.apply, Stream.mapRegisters, ← List.map_drop,
      Exec.firstInstr_map, hnext]
    rfl
  have hret' : m'.returned = false := h.agree.returned.trans hret
  have hfetch : Agree (.ofRename a.rename) (live k) i.memories (m.fetch k) (m'.fetch k) := by
    refine h.agree.fetch (fun r hr => ?_) k
    rw [Needed, if_neg (by simp [hret])]
    exact hc.live_of_skip hle hskip hr
  have hi : i.Conventional := hconv i (List.mem_filterMap.2 ⟨_, List.mem_of_getElem? hk, rfl⟩)
  -- the second machine follows, whatever is needed afterwards
  have hfollow : ∀ S : Register → Prop,
      (∀ r, S r → r ∉ i.defines → live k r ∧
        ∀ d ∈ i.defines, a.rename r = a.rename d → i.copy? = some (d, r)) →
      ∃ n', m'.Step n' ∧ Agree (.ofRename a.rename) S [] n n' := by
    intro S hS
    obtain ⟨n', e', hagree⟩ :=
      Exec.simulates_conventional hi (hc.steady hk hi) (fun r hr => hc.solves.uses hk hr) hS hfetch e
    exact ⟨n', ⟨hret', _, k, hnext', e'⟩, hagree⟩
  have hfinish : ∀ n', m'.Step n' → Agree (.ofRename a.rename) (Needed items live n) [] n n' →
      (n.returned = true →
        ∃ k results, n.position = k + 1 ∧ items[k]? = some (.instr (.ret results))) →
      Follows items a live n n' := fun n' hs' hagree hended =>
    ⟨hitems.trans h.original, hs'.frame.1.trans h.renamed, hlabels ▸ h.labels, hended, hagree⟩
  cases (Exec.control_execute e).1 with
  | falls hsame hfall =>
    have hn : n.returned = false := hsame.returned.trans hret
    have hneed : Needed items live n = live (k + 1) := by
      funext r
      rw [Needed, if_neg (by simp [hn]), hsame.position]
      rfl
    obtain ⟨n', hs', hagree⟩ := hfollow (live (k + 1)) fun r hr =>
      hc.spares hk (.falls hk hfall) hr
    exact ⟨n', hs', hfinish n' hs' (hneed ▸ hagree) (by simp [hn])⟩
  | @jumps l j hl hj hn =>
    obtain ⟨j', hj'⟩ := hc.solves.lands hk hl
    have hsame : j' = j := by
      have := (h.labels l j').2 (Stream.position?_eq_some hj')
      have hj : m.labels.get? l = some j := hj
      rw [hj] at this
      exact (Option.some.inj this).symm
    subst hsame
    have hneed : Needed items live n = live j' := by
      funext r
      rw [Needed, hn, if_neg (by simp [Machine.fetch, hret])]
    obtain ⟨n', hs', hagree⟩ := hfollow (live j') fun r hr => hc.spares hk (.jumps hk hl hj') hr
    exact ⟨n', hs', hfinish n' hs' (hneed ▸ hagree) (by simp [hn, Machine.fetch, hret])⟩
  | @returns results hret hn =>
    subst hret
    obtain ⟨n', hs', hagree⟩ := hfollow (fun r => r ∈ results) fun r hr _ =>
      ⟨hc.solves.uses hk hr, fun d hd => by cases hd⟩
    refine ⟨n', hs', hfinish n' hs' (hagree.shrink fun r hr => ?_) fun _ => ⟨k, results, ?_, hk⟩⟩
    · rw [Needed, hn, if_pos rfl] at hr
      obtain ⟨k', results', hpos, hk', hr⟩ := hr
      cases Nat.succ.inj hpos
      rw [hk] at hk'
      cases hk'
      exact hr
    · rw [hn]; rfl

theorem Checked.steps (hc : Checked items a conflict live)
    (hconv : ∀ i ∈ items.instructions, i.Conventional) (h : Follows items a live m m')
    (hs : Machine.Steps j m n) : ∃ n', Machine.Steps j m' n' ∧ Follows items a live n n' := by
  induction hs generalizing m' with
  | refl => exact ⟨m', .refl m', h⟩
  | head hstep _ ih =>
    obtain ⟨m₁', hstep', h₁⟩ := hc.step hconv h hstep
    obtain ⟨n', hs', hn⟩ := ih h₁
    exact ⟨n', .head hstep' hs', hn⟩

/-- The labels of the renamed stream are where they were. -/
theorem Exec.forM_define_mapRegisters (f : Register → Register) (hlabels : m'.labels = m.labels)
    (e : (items.zipIdx k).forM define m = .ok () n) :
    ((items.mapRegisters f).zipIdx k).forM define m' = .ok () { m' with labels := n.labels } := by
  induction items generalizing k m m' with
  | nil => cases e; rw [← hlabels]; rfl
  | cons item items ih =>
    change (define (item, k) >>= fun _ => (items.zipIdx (k + 1)).forM define) m = _ at e
    obtain ⟨_, m₁, e₁, e₂⟩ := EStateM.bind_eq_ok.1 e
    change (define (item.mapRegisters f, k) >>= fun _ =>
      ((Stream.mapRegisters f items).zipIdx (k + 1)).forM define) m' = _
    cases item with
    | label l =>
      obtain ⟨hnone, rfl⟩ := define_label.1 e₁
      refine EStateM.bind_eq_ok.2 ⟨(), _, define_label.2 ⟨hlabels ▸ hnone, rfl⟩, ?_⟩
      exact ih (by rw [hlabels]) e₂
    | instr i =>
      obtain rfl := (define_other rfl).1 e₁
      exact EStateM.bind_eq_ok.2 ⟨(), m', (define_other rfl).2 rfl, ih hlabels e₂⟩
    | stray r =>
      obtain rfl := (define_other rfl).1 e₁
      exact EStateM.bind_eq_ok.2 ⟨(), m', (define_other rfl).2 rfl, ih hlabels e₂⟩

/-- A machine about to run a stream, with what its registers and memory hold. -/
def Machine.startFrom (items : Stream) (hooks : Bindings Label Hook)
    (registers : Bindings Register Word) (memory : Bindings Word Word) : Machine :=
  { Machine.start items hooks with registers, memory }

/-- Machines at the first item agree on what is live there, if nothing was written to
    virtual registers. -/
theorem Checked.follows_start (hc : Checked items a conflict live) (hitems : m.items = items)
    (hlabels : Exec.Placed items m.labels) (hposition : m.position = 0) (hret : m.returned = false)
    (hvirtual : ∀ id, ∃ t, m.read (.virtual id) = .error t) :
    Follows items a live m { m with items := a.apply items } where
  original := hitems
  renamed := rfl
  labels := hlabels
  ended h := by rw [hret] at h; cases h
  agree :=
    { hooks := rfl, globals := rfl, compared := rfl, returned := rfl, position := rfl, memory := rfl
      labels := fun h => ⟨_, h, rfl⟩
      reads := fun {r} hr => by
        cases r with
        | virtual id => exact Or.inr ⟨rfl, hvirtual id⟩
        | physical q =>
          have hr : live 0 (.physical q) := by
            rw [Needed, hret, hposition] at hr
            exact hr
          have e : a.rename (.physical q) = .physical q := hc.rename_eq (hc.solves.mentioned hr) rfl
          exact Or.inl (by simp only [Setting.ofRename, e]; rfl)
      safe := trivial }

theorem Checked.follows (hc : Checked items a conflict live) (hooks : Bindings Label Hook)
    {registers : Bindings Register Word} (hvirtual : ∀ id, registers.get? (.virtual id) = none)
    (memory : Bindings Word Word) {labels : Bindings Label Nat} (hlabels : Exec.Placed items labels) :
    Follows items a live { Machine.startFrom items hooks registers memory with labels }
      { Machine.startFrom (a.apply items) hooks registers memory with labels } :=
  hc.follows_start (m := { Machine.startFrom items hooks registers memory with labels }) rfl hlabels rfl rfl
    fun id => ⟨_, by simp [Machine.read, Machine.startFrom, Machine.start, hvirtual id]; rfl⟩

end

/-- **A clean lint means that the allocation is correct**: if a stream runs to a
    return, then the renamed stream returns after as many steps, with the same
    memory and the same results. -/
theorem lint_sound {items : Stream} {a : Allocation} {palette : List Physical}
    (hlint : lint items a palette = .ok []) (hconv : ∀ i ∈ items.instructions, i.Conventional)
    (hooks : Bindings Label Hook) (registers : Bindings Register Word)
    (hvirtual : ∀ id, registers.get? (.virtual id) = none) (memory : Bindings Word Word)
    (limit : Int) (n : Machine)
    (hrun : (Machine.startFrom items hooks registers memory).run limit = (none, n)) :
    ∃ n', (Machine.startFrom (a.apply items) hooks registers memory).run limit = (none, n') ∧
      n'.steps = n.steps ∧ n'.memory = n.memory ∧
      ∃ k results, n.position = k + 1 ∧ n'.position = k + 1 ∧
        items[k]? = some (.instr (.ret results)) ∧ ∀ r ∈ results, n'.read r = n.read r := by
  obtain ⟨conflict, live, hc⟩ := checked_of_lint hlint
  obtain ⟨m₁, hdefine, j, hj, hsteps, hn⟩ := Exec.run_eq_ok.1 (Machine.run_eq_none.1 hrun)
  have hlabels : (Machine.startFrom (a.apply items) hooks registers memory).labels =
      (Machine.startFrom items hooks registers memory).labels := rfl
  have hdefine' := Exec.forM_define_mapRegisters a.rename hlabels hdefine
  obtain ⟨labels, rfl, hplaced⟩ := Exec.placed_of_forM rfl hdefine
  obtain ⟨n', hsteps', hfollow⟩ := hc.steps hconv (hc.follows hooks hvirtual memory hplaced) hsteps
  have hn' : n'.returned = true := hfollow.agree.returned.trans hn
  refine ⟨n', Machine.run_eq_none.2 (Exec.run_eq_ok.2 ⟨_, hdefine', j, hj, hsteps', hn'⟩), ?_,
    hfollow.agree.memory.symm, ?_⟩
  · rw [hsteps'.steps_eq, hsteps.steps_eq]
    rfl
  · obtain ⟨k, results, hpos, hk⟩ := hfollow.ended hn
    have hpos' : n.position = n'.position := hfollow.agree.position
    refine ⟨k, results, hpos, hpos' ▸ hpos, hk, fun r hr => ?_⟩
    have hphysical : r.isPhysical = true :=
      (hconv _ (List.mem_filterMap.2 ⟨_, List.mem_of_getElem? hk, rfl⟩)).listsPhysical r hr
    have hread := hfollow.agree.reads (r := r) (by
      rw [Needed, if_pos hn]
      exact ⟨k, results, hpos, hk, hr⟩)
    have e : a.rename r = r := hc.rename_eq (Stream.uses_subset_registers hk hr) hphysical
    rcases hread with h | ⟨h, -⟩
    · simp only [Setting.ofRename, e] at h
      exact h.symm
    · rw [hphysical] at h
      cases h

/-- A loop that adds up the numbers down from 2 and passes the sum to a callee. -/
def countdown : Stream :=
  [.instr (.mov (.reg (.virtual 1)) (.imm 2)), .instr (.clear (.virtual 2)), .label "loop",
    .instr (.binary "add" (.reg (.virtual 2)) (.reg (.virtual 1))),
    .instr (.move (.virtual 3) (.virtual 1)),
    .instr (.binary "sub" (.reg (.virtual 3)) (.imm 1)),
    .instr (.move (.virtual 1) (.virtual 3)),
    .instr (.binary "cmp" (.reg (.virtual 1)) (.imm 0)), .instr (.jcc "ne" "loop"),
    .instr (.move (.physical .rdi) (.virtual 2)),
    .instr (.call "next" [.physical .rdi] [.physical .rax, .physical .rdi]),
    .instr (.ret [.physical .rax])]

/-- Places for its registers: both sides of each copy share one. -/
def countdownPlaces : Allocation where
  assigned := [(.virtual 1, .rcx), (.virtual 2, .rdi), (.virtual 3, .rcx), (.physical .rdi, .rdi),
    (.physical .rax, .rax)]

/-- A callee that returns the successor of its argument. -/
def countdownHooks : Bindings Label Hook := [("next", fun ws => .ok (ws.sum + 1))]

theorem lint_sound_countdown :
    lint countdown countdownPlaces [.rcx, .rdi] = .ok [] ∧
      ∃ n', (Machine.startFrom (countdownPlaces.apply countdown) countdownHooks [] []).run 100 =
          (none, n') ∧ n'.steps = 17 ∧ n'.read (.physical .rax) = .ok 4 := by
  have hlint : lint countdown countdownPlaces [.rcx, .rdi] = .ok [] := rfl
  have hconv : ∀ i ∈ countdown.instructions, i.Conventional := by decide
  generalize hm : (Machine.startFrom countdown countdownHooks [] []).run 100 = outcome
  have hnone : outcome.1 = none := by rw [← hm]; decide +kernel
  have hposition : outcome.2.position = 12 := by rw [← hm]; decide +kernel
  have hsteps : outcome.2.steps = 17 := by rw [← hm]; decide +kernel
  have hread : outcome.2.read (.physical .rax) = .ok 4 := by rw [← hm]; decide +kernel
  obtain ⟨n', hrun, hsteps', -, k, results, hk, -, hitem, hreads⟩ :=
    lint_sound hlint hconv countdownHooks [] (fun _ => rfl) [] 100 outcome.2
      (hm.trans (Prod.ext hnone rfl))
  obtain rfl : k = 11 := by omega
  cases hitem
  exact ⟨hlint, n', hrun, hsteps'.trans hsteps, (hreads _ List.mem_cons_self).trans hread⟩

end Codegen
