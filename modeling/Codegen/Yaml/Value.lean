/-
  The values of YAML documents.

  A document is read as a record whose fields hold texts and lists of texts.  A
  field of the wrong shape only counts in the end, so that reading may end earlier
  for another reason: a scalar that is not what its tag says, a node that contains
  itself, a document most of which is made of references, or a key that cannot be
  compared.

  The key `<<` brings in the entries of other maps.  Of these, keys that were
  given before do not count, and to find out, all keys of the map are read as
  values of any shape.

  * `Document.fields` is what a document says about the fields of a record.
-/
import Codegen.Yaml.Node

namespace Codegen.Yaml

/-- A value. -/
inductive Value where
  | key (k : Key)
  | list (items : List Value)
  | map

/-- The text that a value is. -/
def Value.text? : Value → Option Text.Loose
  | key (.text s) => some s
  | _ => none

/-- What is asked of a value. -/
inductive Shape where
  | text
  | texts
  /-- A map with the given fields; other keys do not count. -/
  | record (fields : List (String × Shape))
  | any
  /-- A map of any values; `textKeys` tells if all keys are read as texts. -/
  | map (textKeys : Bool)

/-- Why a document cannot be read. -/
inductive Problem where
  /-- It is no document of the right shape. -/
  | malformed
  /-- A list or a map would have to be compared with other keys. -/
  | incomparableKey
  deriving DecidableEq, Repr

/-- What is known while values are read. -/
structure Progress where
  /-- The number of nodes read. -/
  visited : Nat := 0
  /-- How many of these were read through references. -/
  referred : Nat := 0
  /-- The references that are being followed. -/
  following : List Nat := []
  /-- Have all values had the right shape? -/
  fits : Bool := true
  /-- The keys that were given before, if the map that comes next is brought in by
      another one. -/
  given : Option (List Key) := none
  /-- The fields that have been read, the latest first. -/
  fields : List (String × Value) := []

/-- Reading values. -/
abbrev Decode := StateT Progress (Except Problem)

namespace Decode

/-! ## Limits -/

/-- Are too many of the nodes read through references?  In a small document nearly
    all of them may be, in a large one a tenth. -/
def isExcessive (visited referred : Nat) : Bool :=
  if referred ≤ 100 || visited ≤ 1000 then false
  else if visited ≤ 400000 then decide (99 * visited < 100 * referred)
  else if 4000000 ≤ visited then decide (visited < 10 * referred)
  else
    decide (visited * (99 * 3600000 - 89 * (visited - 400000)) < 100 * 3600000 * referred)

/-- Counts a node. -/
def count : Decode Unit := do
  let p ← get
  let visited := p.visited + 1
  let referred := if p.following.isEmpty then p.referred else p.referred + 1
  if isExcessive visited referred then throw .malformed
  set { p with visited, referred }

/-- Follows a reference, unless it is being followed already. -/
def follow {α : Type} (number : Nat) (read : Decode α) : Decode α := do
  let p ← get
  if p.following.contains number then throw .malformed
  set { p with following := number :: p.following }
  let a ← read
  modify fun p => { p with following := p.following.drop 1 }
  return a

/-- Notes a value of the wrong shape. -/
def misfit {α : Type} : Decode (Option α) := do
  modify fun p => { p with fits := false }
  return none

/-! ## Keys -/

/-- Could the two keys be written in the same way? -/
def isAlike : Node → Node → Bool
  | .scalar _ a, .scalar _ b => decide (a = b)
  | .list .., .list .. => true
  | .map .., .map .. => true
  | .reference a _ _, .reference b _ _ => decide (a = b)
  | _, _ => false

/-- Are no two keys written in the same way? -/
def areDistinct : List (Node × Node) → Bool
  | [] => true
  | (k, _) :: entries => !entries.any (fun e => isAlike k e.1) && areDistinct entries

/-- Is it the key that brings in the entries of other maps? -/
def isMerge : Node → Bool
  | .scalar tag text => decide (tag = Node.mergeTag) && decide (text = Node.mergeText)
  | _ => false

/-- The node that a node stands for. -/
def target? (named : List (Nat × Node)) : Node → Option Node
  | .reference _ target _ => named.lookup target
  | n => some n

/-- Is the node a map, or a reference to one? -/
def isMap (named : List (Nat × Node)) (n : Node) : Bool :=
  match target? named n with
  | some (.map ..) => true
  | _ => false

/-- Is the key a text, by its tag? -/
def isTextKey (named : List (Nat × Node)) (n : Node) : Bool :=
  let tags := [Meaning.text.tag, Node.mergeTag]
  match target? named n with
  | some (.scalar tag _) | some (.list tag _) | some (.map tag _) => tags.contains tag
  | _ => false

/-- The shape in which a map with the given entries is read, if it fits. -/
def mapShape? (named : List (Nat × Node)) (entries : List (Node × Node)) : Shape → Option Shape
  | .record fields => some (.record fields)
  | .map textKeys => some (.map textKeys)
  | .any => some (.map (entries.all fun e => isTextKey named e.1))
  | .text | .texts => none

/-- Was the key given before?  If not, it is now. -/
def isGiven (k : Key) (given : Option (List Key)) : Bool × Option (List Key) :=
  match given with
  | none => (false, none)
  | some ks =>
    if k ≠ .number .undefined && ks.contains k then (true, given) else (false, some (k :: ks))

/-- The key that a value is. -/
def comparable : Value → Decode Key
  | .key k => return k
  | .list _ | .map => throw .incomparableKey

/-! ## Values -/

/-- A scalar. -/
def scalar (shape : Shape) (tag text : String) : Decode (Option Value) := do
  match Key.ofScalar? tag text, shape with
  | none, _ => throw .malformed
  | some k, .any => return some (.key k)
  | some .null, .texts => return some (.key .null)
  | some .null, _ => return none
  | some (.text s), .text => return some (.key (.text s))
  | some _, .text => return some (.key (.text (Text.Loose.ofString text)))
  | some _, _ => misfit

mutual

/-- The value of a node, if it has the right shape.  `limit` bounds the number of
    steps. -/
def node (named : List (Nat × Node)) : (limit : Nat) → Shape → Node → Decode (Option Value)
  | 0, _, _ => throw .malformed
  | limit + 1, shape, n => do
    count
    match n with
    | .scalar tag text => scalar shape tag text
    | .reference _ target number =>
      match named.lookup target with
      | some n => follow number (node named limit shape n)
      | none => throw .malformed
    | .list _ items =>
      match shape with
      | .texts => return some (.list (← nodes named limit .text items))
      | .any => return some (.list (← nodes named limit .any items))
      | _ => misfit
    | .map _ entries =>
      match areDistinct entries, mapShape? named entries shape with
      | true, some shape =>
        let given := (← get).given
        modify fun p => { p with given := none }
        let given ← match shape with
          | .record fields => recordEntries named limit fields [] given entries
          | .map textKeys => mapEntries named limit textKeys given entries
          | _ => pure given
        modify fun p => { p with given }
        match entries.find? fun e => isMerge e.1 with
        | some e => merge named limit shape entries e.2
        | none => pure ()
        return some .map
      | _, _ => misfit

/-- The values of those items of a list that have the right shape. -/
def nodes (named : List (Nat × Node)) : (limit : Nat) → Shape → List Node → Decode (List Value)
  | 0, _, _ => throw .malformed
  | _, _, [] => return []
  | limit + 1, shape, n :: ns => do
    let v ← node named limit shape n
    return v.toList ++ (← nodes named limit shape ns)

/-- Reads the entries of a record of which the fields in `done` have been read, and
    gives the keys that are given after it. -/
def recordEntries (named : List (Nat × Node)) : (limit : Nat) →
    (fields : List (String × Shape)) → (done : List String) → (given : Option (List Key)) →
    List (Node × Node) → Decode (Option (List Key))
  | 0, _, _, _, _ => throw .malformed
  | _, _, _, given, [] => return given
  | limit + 1, fields, done, given, (k, v) :: entries => do
    if isMerge k then recordEntries named limit fields done given entries
    else
      match (← node named limit .text k).bind Value.text? with
      | none => recordEntries named limit fields done given entries
      | some s =>
        let (before, given) := isGiven (.text s) given
        let name := s.string?.getD ""
        match before, fields.lookup name with
        | true, _ | false, none => recordEntries named limit fields done given entries
        | false, some shape =>
          if done.contains name then
            let _ : Option Value ← misfit
            recordEntries named limit fields done given entries
          else
            let v ← node named limit shape v
            modify fun p => { p with fields := v.toList.map (name, ·) ++ p.fields }
            recordEntries named limit fields (name :: done) given entries

/-- Reads the entries of a map, and gives the keys that are given after it. -/
def mapEntries (named : List (Nat × Node)) : (limit : Nat) → (textKeys : Bool) →
    (given : Option (List Key)) → List (Node × Node) → Decode (Option (List Key))
  | 0, _, _, _ => throw .malformed
  | _, _, given, [] => return given
  | limit + 1, textKeys, given, (k, v) :: entries => do
    if isMerge k then mapEntries named limit textKeys given entries
    else
      match ← node named limit (if textKeys then .text else .any) k with
      | none => mapEntries named limit textKeys given entries
      | some value =>
        match value, given with
        | .key k, _ =>
          let (before, given) := isGiven k given
          if !before then
            let _ ← node named limit .any v
          mapEntries named limit textKeys given entries
        | _, some _ => throw .incomparableKey
        | _, none => throw .malformed

/-- Brings the entries of other maps into a map with the given entries. -/
def merge (named : List (Nat × Node)) : (limit : Nat) → Shape → List (Node × Node) → Node →
    Decode Unit
  | 0, _, _, _ => throw .malformed
  | limit + 1, shape, entries, source => do
    let outermost := (← get).given.isNone
    if outermost then
      modify fun p => { p with given := some [] }
      giveKeys named limit entries
    match source with
    | .list _ sources => mergeAll named limit shape sources
    | _ => mergeAll named limit shape [source]
    if outermost then modify fun p => { p with given := none }

/-- Reads the keys of a map as given. -/
def giveKeys (named : List (Nat × Node)) : (limit : Nat) → List (Node × Node) → Decode Unit
  | 0, _ => throw .malformed
  | _, [] => return ()
  | limit + 1, (k, _) :: entries => do
    match ← node named limit .any k with
    | none => pure ()
    | some v =>
      let key ← comparable v
      modify fun p => { p with given := (isGiven key p.given).2 }
    giveKeys named limit entries

/-- Brings the entries of maps into a map. -/
def mergeAll (named : List (Nat × Node)) : (limit : Nat) → Shape → List Node → Decode Unit
  | 0, _, _ => throw .malformed
  | _, _, [] => return ()
  | limit + 1, shape, n :: ns => do
    if !isMap named n then throw .malformed
    let _ ← node named limit shape n
    mergeAll named limit shape ns

end

end Decode

/-- What a document says about the fields of a record.  The `size` of its text
    bounds the number of steps: no more references are followed at a time than
    there are, and none of them leads deeper than the text is long. -/
def Document.fields (d : Document) (size : Nat) (fields : List (String × Shape)) :
    Except Problem (List (String × Value)) := do
  match d.root with
  | none => return []
  | some root =>
    let limit := 4 * (size + 4) * (size + 4)
    let read : Decode Unit := do
      Decode.count
      let _ ← Decode.node d.named limit (.record fields) root
    let ((), p) ← read.run {}
    if p.fits then return p.fields else throw .malformed

end Codegen.Yaml
