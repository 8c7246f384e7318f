/-
  YAML documents.

  A document is made of nodes: scalars, lists, maps, and references to nodes that
  were given a name.  A node may contain a reference to itself, so references say
  by number which node they stand for.

  `Document.parse?` reads the first document of a text.  Where a token cannot
  stand, the text is no document; but what follows the first document is not
  looked at any further than needed to see that the document has ended.
-/
import Codegen.Yaml.Kind
import Codegen.Yaml.Token

namespace Codegen.Yaml

/-- A part of a document.  The tag says of what kind it is. -/
inductive Node where
  | scalar (tag text : String)
  | list (tag : String) (items : List Node)
  | map (tag : String) (entries : List (Node × Node))
  /-- A reference, with the number of the node that it stands for and a number of
      its own. -/
  | reference (name : String) (target number : Nat)

namespace Node

/-- The tag of the key by which a map brings in the entries of others. -/
def mergeTag : String := "!!merge"

/-- The text of that key. -/
def mergeText : String := "<<"

/-- A scalar with the tag that is written in front of it.  A single exclamation
    mark says nothing. -/
def ofScalar (tag : Option String) (text : String) (isPlain : Bool) : Node :=
  match tag.filter (· ≠ "!") with
  | some tag => .scalar tag text
  | none =>
    if !isPlain then .scalar Meaning.text.tag text
    else if text = mergeText then .scalar mergeTag text
    else .scalar (Meaning.of true text).tag text

/-- The value that is left out. -/
def absent : Node := ofScalar none "" true

/-- A list with the tag that is written in front of it. -/
def ofItems (tag : Option String) (items : List Node) : Node :=
  .list ((tag.filter (· ≠ "!")).getD "!!seq") items

/-- A map with the tag that is written in front of it. -/
def ofEntries (tag : Option String) (entries : List (Node × Node)) : Node :=
  .map ((tag.filter (· ≠ "!")).getD "!!map") entries

end Node

/-- A document: its outermost node, if there is one, and the nodes that references
    stand for, by number. -/
structure Document where
  root : Option Node
  named : List (Nat × Node)

/-! ## Reading -/

/-- What is known while a document is read: the text, what its directives say about
    the handles of tags, and the named nodes so far. -/
structure Reader where
  source : Source
  /-- A bound on the number of tokens read in a row. -/
  limit : Nat
  handles : List (String × String) := []
  /-- The names and the numbers of their nodes, the latest first. -/
  names : List (String × Nat) := []
  /-- The named nodes that have been read, by number. -/
  named : List (Nat × Node) := []
  /-- The number of references so far. -/
  references : Nat := 0

/-- Reading a part of a document. -/
abbrev Read := StateT Reader Option

namespace Read

/-- The next token, which stays. -/
def peek : Read Token := do
  let r ← get
  let source ← r.source.settle r.limit
  set { r with source }
  source.found.head?

/-- Takes the next token. -/
def skip : Read Unit := modify fun r =>
  { r with source := { r.source with found := r.source.found.drop 1, taken := r.source.taken + 1 } }

/-- A reference to a name. -/
def refer (name : String) : Read Node := do
  let r ← get
  match r.names.lookup name with
  | none => failure
  | some target =>
    set { r with references := r.references + 1 }
    return .reference name target r.references

/-- Gives a name to the node that `read` reads. -/
def naming (name : String) (read : Read Node) : Read Node := do
  let number := (← get).names.length
  modify fun r => { r with names := (name, number) :: r.names }
  let n ← read
  modify fun r => { r with named := (number, n) :: r.named }
  return n

/-- The name of a tag. -/
def tagName (t : Tag) : Read String := do t.name? (← get).handles

/-- The name and the tag in front of a value, in any order. -/
def properties : Read (Option String × Option String) := do
  match ← peek with
  | .anchor name =>
    skip
    match ← peek with
    | .tag t => skip; return (some name, some (← tagName t))
    | _ => return (some name, none)
  | .tag t =>
    skip
    let tag ← tagName t
    match ← peek with
    | .anchor name => skip; return (some name, some tag)
    | _ => return (none, some tag)
  | _ => return (none, none)

mutual

/-- A value.  `inBlock` tells if a list or a map without brackets may stand here,
    and `underKey` if a list may do so without being indented.  `limit` bounds
    the depth. -/
def value : (limit : Nat) → (inBlock underKey : Bool) → Read Node
  | 0, _, _ => failure
  | limit + 1, inBlock, underKey => do
    match ← peek with
    | .reference name => skip; refer name
    | _ =>
      let (name, tag) ← properties
      let read := content limit inBlock underKey tag (name.isSome || tag.isSome)
      match name with
      | some name => naming name read
      | none => read

/-- A value after its name and its tag; `marked` tells if there was one of the two,
    and the value may then be absent. -/
def content : (limit : Nat) → (inBlock underKey : Bool) → (tag : Option String) →
    (marked : Bool) → Read Node
  | 0, _, _, _, _ => failure
  | limit + 1, inBlock, underKey, tag, marked => do
    match ← peek, inBlock, underKey with
    | .dash, _, true => return Node.ofItems tag (← listUnderKey limit)
    | .scalar text isPlain, _, _ => skip; return Node.ofScalar tag text isPlain
    | .listOpen, _, _ => skip; return Node.ofItems tag (← items limit true)
    | .mapOpen, _, _ => skip; return Node.ofEntries tag (← entries limit true)
    | .blockList, true, _ => skip; return Node.ofItems tag (← blockItems limit)
    | .blockMap, true, _ => skip; return Node.ofEntries tag (← blockEntries limit)
    | _, _, _ => if marked then return Node.ofScalar tag "" true else failure

/-- A value, unless one of the given tokens follows. -/
def valueBefore : (limit : Nat) → (inBlock underKey : Bool) → List Token → Read Node
  | 0, _, _, _ => failure
  | limit + 1, inBlock, underKey, stops => do
    if stops.contains (← peek) then return Node.absent else value limit inBlock underKey

/-- The value after a colon, if there is one. -/
def afterColon : (limit : Nat) → (inBlock underKey : Bool) → List Token → Read Node
  | 0, _, _, _ => failure
  | limit + 1, inBlock, underKey, stops => do
    match ← peek with
    | .value => skip; valueBefore limit inBlock underKey stops
    | _ => return Node.absent

/-- The items of a list in brackets. -/
def items : (limit : Nat) → (first : Bool) → Read (List Node)
  | 0, _ => failure
  | limit + 1, first => do
    match ← peek, first with
    | .listClose, _ => skip; return []
    | .comma, false =>
      skip
      if (← peek) = .listClose then skip; return [] else item limit
    | _, true => item limit
    | _, false => failure

/-- An item of a list in brackets and the items after it.  An item with a key is a
    map of one entry; where its key is absent, the token in its place is lost. -/
def item : (limit : Nat) → Read (List Node)
  | 0 => failure
  | limit + 1 => do
    match ← peek with
    | .key =>
      skip
      let t ← peek
      let key ← if [.value, .comma, .listClose].contains t then (do skip; return Node.absent)
        else value limit false false
      let v ← afterColon limit false false [.comma, .listClose]
      return Node.ofEntries none [(key, v)] :: (← items limit false)
    | _ =>
      let d ← value limit false false
      return d :: (← items limit false)

/-- The entries of a map in brackets. -/
def entries : (limit : Nat) → (first : Bool) → Read (List (Node × Node))
  | 0, _ => failure
  | limit + 1, first => do
    match ← peek, first with
    | .mapClose, _ => skip; return []
    | .comma, false =>
      skip
      if (← peek) = .mapClose then skip; return [] else entry limit
    | _, true => entry limit
    | _, false => failure

/-- An entry of a map in brackets and the entries after it. -/
def entry : (limit : Nat) → Read (List (Node × Node))
  | 0 => failure
  | limit + 1 => do
    match ← peek with
    | .key =>
      skip
      let key ← valueBefore limit false false [.value, .comma, .mapClose]
      let v ← afterColon limit false false [.comma, .mapClose]
      return (key, v) :: (← entries limit false)
    | _ =>
      let key ← value limit false false
      return (key, Node.absent) :: (← entries limit false)

/-- The items of a list without brackets. -/
def blockItems : (limit : Nat) → Read (List Node)
  | 0 => failure
  | limit + 1 => do
    match ← peek with
    | .dash =>
      skip
      let d ← valueBefore limit true false [.dash, .blockEnd]
      return d :: (← blockItems limit)
    | .blockEnd => skip; return []
    | _ => failure

/-- The items of a list that is not indented further than the key above it. -/
def listUnderKey : (limit : Nat) → Read (List Node)
  | 0 => failure
  | limit + 1 => do
    match ← peek with
    | .dash =>
      skip
      let d ← valueBefore limit true false [.dash, .key, .value, .blockEnd]
      return d :: (← listUnderKey limit)
    | _ => return []

/-- The entries of a map without brackets. -/
def blockEntries : (limit : Nat) → Read (List (Node × Node))
  | 0 => failure
  | limit + 1 => do
    match ← peek with
    | .key =>
      skip
      let key ← valueBefore limit true true [.key, .value, .blockEnd]
      let v ← afterColon limit true true [.key, .value, .blockEnd]
      return (key, v) :: (← blockEntries limit)
    | .blockEnd => skip; return []
    | _ => failure

end

/-- The directives in front of a document, and if there are any.  The version is
    said at most once, and so is what a handle stands for; `versioned` tells if
    the version has been said. -/
def directives : (limit : Nat) → (versioned : Bool) → Read Bool
  | 0, _ => failure
  | limit + 1, versioned => do
    match ← peek with
    | .directive (.handle name base) =>
      let r ← get
      if (r.handles.lookup name).isSome then failure
      set { r with handles := (name, base) :: r.handles }
      skip
      let _ ← directives limit versioned
      return true
    | .directive d =>
      if versioned || d ≠ .known then failure
      skip
      let _ ← directives limit true
      return true
    | _ => return false

/-- The first document of a text, if there is one. -/
def document (limit : Nat) : Read (Option Node) := do
  let directed ← directives limit false
  match ← peek, directed with
  | .documentStart, _ =>
    skip
    let d ← match ← peek with
      | .directive _ | .documentStart | .documentEnd | .streamEnd => pure Node.absent
      | _ => value limit true false
    let _ ← peek
    return some d
  | _, true => failure
  | .streamEnd, false => return none
  | _, false =>
    let d ← value limit true false
    let _ ← peek
    return some d

end Read

/-- The first document of a text.  If the text cannot be read to its end, the
    document must end before that place is looked at. -/
def Document.parse? (text : String) : Option Document := do
  let (gs, isWhole) := glyphs text
  let (root, r) ← (Read.document (8 * gs.length + 32)).run
    { source := Source.ofGlyphs gs, limit := gs.length + 4 }
  if isWhole || Source.outlook < r.source.rest.length then some ⟨root, r.named⟩ else none

end Codegen.Yaml
