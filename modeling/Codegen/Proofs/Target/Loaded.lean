/-
  Which targets documents describe.

  * `File.Describes` says what a document means: its names are names of registers, the
    palette holds neither pointer, and there are scratch registers enough.  A document is
    loaded if and only if it describes a target (`ofFile_eq_ok`), and so is a text, once it
    is read as a document (`parse_eq_ok`).
  * `Usable` is what spill code needs of a target.  It does not follow: nobody looks
    whether the scratch registers are distinct and in the palette (`ofFile_loads`).
-/
import Codegen.Proofs.Outcomes
import Codegen.Target.File

namespace Codegen

namespace Physical

theorem mem_all (p : Physical) : p ∈ all := by cases p <;> decide

theorem allocatable_iff {p : Physical} : p.allocatable = true ↔ p ≠ .rsp ∧ p ≠ .rbp := by
  cases p <;> decide

/-- The text is the name of a register: the assembler name or the short one, in any case
    and with white space around it. -/
def Named (p : Physical) (s : String) : Prop :=
  Text.lower (Text.trim s) = p.name ∨ Text.lower (Text.trim s) = Text.lower p.shortName

/-- No two registers have a name in common. -/
theorem eq_of_named {p q : Physical} {s : String} (hp : p.Named s) (hq : q.Named s) : p = q := by
  have hdistinct : ∀ p ∈ all, ∀ q ∈ all, (p.name = q.name ∨ p.name = Text.lower q.shortName ∨
      Text.lower p.shortName = q.name ∨ Text.lower p.shortName = Text.lower q.shortName) → p = q := by
    decide +kernel
  refine hdistinct p (mem_all p) q (mem_all q) ?_
  rcases hp with hp | hp <;> rcases hq with hq | hq <;> rw [← hp, ← hq] <;> simp

theorem find?_eq_some_iff_named {test : Physical → Bool} {p : Physical} {s : String}
    (htest : ∀ q, test q = true ↔ q.Named s) : all.find? test = some p ↔ p.Named s := by
  refine ⟨fun h => (htest p).1 (List.find?_some h), fun h => ?_⟩
  obtain ⟨q, hq⟩ := Option.isSome_iff_exists.1 (List.find?_isSome.2 ⟨p, mem_all p, (htest p).2 h⟩)
  rw [eq_of_named h ((htest q).1 (List.find?_some hq))]
  exact hq

theorem ofName?_eq_some {p : Physical} {s : String} : ofName? s = some p ↔ p.Named s := by
  unfold ofName?
  refine find?_eq_some_iff_named fun q => ?_
  simp only [Bool.or_eq_true, beq_iff_eq]
  exact or_congr eq_comm eq_comm

end Physical

namespace Target

/-- The name in a document is a name of the register. -/
def Names (name : Text.Loose) (p : Physical) : Prop := ∃ s, name.string? = some s ∧ p.Named s

theorem lookupLoose_eq_ok {name : Text.Loose} {p : Physical} :
    lookupLoose name = .ok p ↔ Names name p := by
  have hbind : name.string?.bind Physical.ofName? = some p ↔ Names name p := by
    simp only [Option.bind_eq_some_iff, Physical.ofName?_eq_some, Names]
  rw [← hbind, lookupLoose]
  cases name.string?.bind Physical.ofName? with
  | none => simp
  | some q => simp

theorem lookupAll_eq_ok {target list : String} {names : List Text.Loose} {ps : List Physical} :
    lookupAll target list names = .ok ps ↔ List.Forall₂ Names names ps := by
  have hmapM : names.mapM lookupLoose = .ok ps ↔ List.Forall₂ Names names ps := by
    simp only [Except.mapM_eq_ok_iff, lookupLoose_eq_ok]
  rw [← hmapM, lookupAll]
  cases names.mapM lookupLoose with
  | error e => simp [Except.mapError]
  | ok qs => simp [Except.mapError]

/-! ## Documents -/

/-- The registers that a document names for the palette. -/
structure File.Palette (names : List Text.Loose) (ps : List Physical) : Prop where
  named : List.Forall₂ Names names ps
  nonempty : ps ≠ []
  allocatable : ∀ p ∈ ps, p ≠ .rsp ∧ p ≠ .rbp

/-- The registers that a document names for spill code. -/
structure File.Reserve (names : List Text.Loose) (ps : List Physical) : Prop where
  named : List.Forall₂ Names names ps
  enough : minScratch ≤ ps.length

/-- What a document says about a target.  A list that is left out is the default one. -/
structure File.Describes (f : File) (t : Target) : Prop where
  name : t.name = if f.name = "" then defaultName else f.name
  palette : f.registers.elim (t.palette = defaultPalette) (File.Palette · t.palette)
  scratch : f.scratch.elim (t.scratch = defaultScratch) (File.Reserve · t.scratch)

theorem palette_eq_ok {name : String} {names : List Text.Loose} {ps : List Physical} :
    File.palette name names = .ok ps ↔ File.Palette names ps := by
  unfold File.palette
  rw [Except.bind_eq_ok]
  constructor
  · rintro ⟨qs, hqs, h⟩
    split at h
    · cases h
    · next hfind =>
      split at h
      · cases h
      · next hempty =>
        cases h
        refine ⟨lookupAll_eq_ok.1 hqs, by simpa using hempty, fun p hp => ?_⟩
        exact Physical.allocatable_iff.1 (by simpa using List.find?_eq_none.1 hfind p hp)
  · rintro ⟨hnamed, hempty, hall⟩
    refine ⟨ps, lookupAll_eq_ok.2 hnamed, ?_⟩
    have hfind : ps.find? (fun p => !p.allocatable) = none :=
      List.find?_eq_none.2 fun p hp => by simp [Physical.allocatable_iff.2 (hall p hp)]
    simp only [hfind, List.isEmpty_iff, hempty, if_false]
    rfl

theorem reserve_eq_ok {name : String} {names : List Text.Loose} {ps : List Physical} :
    File.reserve name names = .ok ps ↔ File.Reserve names ps := by
  unfold File.reserve
  rw [Except.bind_eq_ok]
  constructor
  · rintro ⟨qs, hqs, h⟩
    split at h
    · cases h
    · next hlength =>
      cases h
      exact ⟨lookupAll_eq_ok.1 hqs, Nat.le_of_not_lt hlength⟩
  · rintro ⟨hnamed, henough⟩
    refine ⟨ps, lookupAll_eq_ok.2 hnamed, ?_⟩
    rw [if_neg (Nat.not_lt.2 henough)]
    rfl

/-- What may be left out is loaded from what is there, or it is the default. -/
theorem mapM_getD_eq_ok {α β ε : Type} (g : α → Except ε β) (o : Option α) (default b : β) :
    (∃ o', o.mapM g = .ok o' ∧ o'.getD default = b) ↔ o.elim (b = default) fun x => g x = .ok b := by
  cases o with
  | none =>
    change (∃ o', Except.ok none = Except.ok o' ∧ o'.getD default = b) ↔ b = default
    simp [eq_comm]
  | some x =>
    change (∃ o', (some <$> g x) = .ok o' ∧ o'.getD default = b) ↔ g x = .ok b
    cases g x <;> simp [Functor.map, Except.map]

/-- **A document is loaded if and only if it describes a target**, which is then the one
    that is loaded. -/
theorem ofFile_eq_ok {f : File} {t : Target} : ofFile f = .ok t ↔ f.Describes t := by
  have hpalette (name : String) :=
    mapM_getD_eq_ok (File.palette name) f.registers defaultPalette t.palette
  have hscratch (name : String) :=
    mapM_getD_eq_ok (File.reserve name) f.scratch defaultScratch t.scratch
  simp only [palette_eq_ok, reserve_eq_ok] at hpalette hscratch
  unfold ofFile
  simp only [Except.bind_eq_ok]
  constructor
  · rintro ⟨registers, hr, scratch, hs, h⟩
    cases h
    exact ⟨rfl, (hpalette _).1 ⟨registers, hr, rfl⟩, (hscratch _).1 ⟨scratch, hs, rfl⟩⟩
  · intro h
    obtain ⟨registers, hr, hp⟩ := (hpalette _).2 h.palette
    obtain ⟨scratch, hs, hq⟩ := (hscratch _).2 h.scratch
    refine ⟨registers, hr, scratch, hs, ?_⟩
    simp only [Choice.build, hp, hq, ← h.name]
    rfl

/-- The text of a document is read first, and then what it says. -/
theorem parse_eq_ok {text : String} {t : Target} :
    parse text = .ok t ↔ ∃ d values, Yaml.Document.parse? text = some d ∧
      d.fields text.length fields = .ok values ∧ (File.ofFields values).Describes t := by
  unfold parse
  cases Yaml.Document.parse? text with
  | none =>
    constructor
    · intro h; cases h
    · rintro ⟨_, _, h, -⟩; cases h
  | some d =>
    simp only [Option.some.injEq, exists_and_left, exists_eq_left', ← ofFile_eq_ok]
    cases d.fields text.length fields with
    | ok values => simp
    | error e => cases e <;> simp [throw, throwThe, MonadExceptOf.throw]

/-! ## Targets -/

/-- What spill code needs of a target: registers to hand out, and registers of its own
    that are distinct and never a pointer. -/
structure Usable (t : Target) : Prop where
  nonempty : t.palette ≠ []
  palette : .rsp ∉ t.palette ∧ .rbp ∉ t.palette
  enough : minScratch ≤ t.scratch.length
  distinct : t.scratch.Nodup
  apart : .rsp ∉ t.scratch ∧ .rbp ∉ t.scratch
  within : t.scratch ⊆ t.palette

/-- What is looked at when a target is loaded. -/
structure Loadable (t : Target) : Prop where
  name : t.name ≠ ""
  nonempty : t.palette ≠ []
  palette : .rsp ∉ t.palette ∧ .rbp ∉ t.palette
  enough : minScratch ≤ t.scratch.length

/-- What may be left out is left out or given. -/
theorem or_exists_of_elim {α : Type} {o : Option α} {absent : Prop} {given : α → Prop}
    (h : o.elim absent given) : absent ∨ ∃ x, given x := by
  cases o with
  | none => exact Or.inl h
  | some x => exact Or.inr ⟨x, h⟩

theorem File.Describes.loadable {f : File} {t : Target} (h : f.Describes t) : t.Loadable := by
  have hname : t.name ≠ "" := by
    rw [h.name]
    split
    · decide
    · next hname => exact hname
  have hpalette : t.palette ≠ [] ∧ .rsp ∉ t.palette ∧ .rbp ∉ t.palette := by
    obtain hp | ⟨names, hp⟩ := or_exists_of_elim h.palette
    · rw [hp]; decide
    · exact ⟨hp.nonempty, fun hm => (hp.allocatable _ hm).1 rfl, fun hm => (hp.allocatable _ hm).2 rfl⟩
  have henough : minScratch ≤ t.scratch.length := by
    obtain hs | ⟨names, hs⟩ := or_exists_of_elim h.scratch
    · rw [hs]; decide
    · exact hs.enough
  exact ⟨hname, hpalette.1, hpalette.2, henough⟩

theorem mapM_map_char {g : Text.Piece → Option Char} (hg : ∀ c, g (.char c) = some c) (cs : List Char) :
    (cs.map Text.Piece.char).mapM g = some cs := by
  induction cs with
  | nil => rfl
  | cons c cs ih => rw [List.map_cons, List.mapM_cons, hg, ih]; rfl

theorem string?_ofString (s : String) : (Text.Loose.ofString s).string? = some s := by
  rw [Text.Loose.string?, Text.Loose.ofString, mapM_map_char fun _ => rfl, Option.map_some, String.ofList_toList]

theorem names_name (p : Physical) : Names (.ofString p.name) p := by
  have hplain : ∀ p ∈ Physical.all, Text.lower (Text.trim p.name) = p.name := by decide +kernel
  exact ⟨p.name, string?_ofString _, Or.inl (hplain p p.mem_all)⟩

/-- The document that names the registers of a target. -/
def toFile (t : Target) : File :=
  let names (ps : List Physical) : List Text.Loose := ps.map fun p => .ofString p.name
  { name := t.name, registers := some (names t.palette), scratch := some (names t.scratch) }

theorem Loadable.describes {t : Target} (h : t.Loadable) : t.toFile.Describes t := by
  have hnames : ∀ ps : List Physical,
      List.Forall₂ Names (ps.map fun p => Text.Loose.ofString p.name) ps := fun ps => by
    induction ps with
    | nil => exact .nil
    | cons p ps ih => exact .cons (names_name p) ih
  refine ⟨(if_neg h.name).symm, ⟨hnames _, h.nonempty, fun p hp => ?_⟩, ⟨hnames _, h.enough⟩⟩
  exact ⟨fun e => h.palette.1 (e ▸ hp), fun e => h.palette.2 (e ▸ hp)⟩

theorem Loadable.usable_iff {t : Target} (h : t.Loadable) :
    t.Usable ↔ t.scratch.Nodup ∧ t.scratch ⊆ t.palette := by
  refine ⟨fun hu => ⟨hu.distinct, hu.within⟩, ?_⟩
  rintro ⟨hdistinct, hwithin⟩
  exact ⟨h.nonempty, h.palette, h.enough, hdistinct,
    ⟨fun hm => h.palette.1 (hwithin hm), fun hm => h.palette.2 (hwithin hm)⟩, hwithin⟩

/-- **What loading a target guarantees.**  A document that describes a target gives this
    target, and every other one gives an error.  The palette is then neither empty nor
    holds a pointer, and there are scratch registers enough; and every target like this
    can be loaded.  So the target is usable only if the document happens to name distinct
    scratch registers of the palette. -/
theorem ofFile_loads (f : File) (t : Target) :
    (ofFile f = .ok t ↔ f.Describes t) ∧
      ((∃ e, ofFile f = .error e) ↔ ∀ t', ¬f.Describes t') ∧
      ((∃ f', ofFile f' = .ok t) ↔ t.Loadable) ∧
      (ofFile f = .ok t → (t.Usable ↔ t.scratch.Nodup ∧ t.scratch ⊆ t.palette)) := by
  refine ⟨ofFile_eq_ok, ?_, ?_, fun h => (ofFile_eq_ok.1 h).loadable.usable_iff⟩
  · simp only [← ofFile_eq_ok]
    cases ofFile f <;> simp
  · constructor
    · rintro ⟨f', h⟩
      exact (ofFile_eq_ok.1 h).loadable
    · exact fun h => ⟨t.toFile, ofFile_eq_ok.2 h.describes⟩

/-- A document whose scratch registers are not in its palette. -/
def apartFile : File where
  registers := some [.ofString "AX", .ofString " rbx "]
  scratch := some [.ofString "r10", .ofString "R11"]

/-- The target of the document is loaded, and it is not usable. -/
theorem ofFile_loads_apart :
    ofFile apartFile = .ok ⟨"amd64", [.rax, .rbx], [.r10, .r11]⟩ ∧
      ¬Usable ⟨"amd64", [.rax, .rbx], [.r10, .r11]⟩ := by
  have hload : ofFile apartFile = .ok ⟨"amd64", [.rax, .rbx], [.r10, .r11]⟩ := by decide +kernel
  refine ⟨hload, fun hu => ?_⟩
  have hwithin := (((ofFile_loads apartFile _).2.2.2 hload).1 hu).2
  exact absurd (hwithin (List.mem_cons_self (a := Physical.r10))) (by decide)

end Target

end Codegen
