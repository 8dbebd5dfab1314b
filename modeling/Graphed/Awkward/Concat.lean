import Graphed.Awkward.LayoutLaws
import Mathlib.Algebra.Group.Pi.Basic

/-!
# Concatenating what reads left partly unread

The awkward exchange primitive `concat`. Where some chunk left a buffer unread, nodes are joined by
hand: a node whose own buffers every chunk read keeps them, rebased to the joined contents, and any
other becomes placeholders with all below it.
-/

namespace Graphed.Blocks

open Gathering (cumsum rebased)

variable {α : Type}

/-! ### The joined layout -/

/-- What joining layouts gives. `concatenated` is what `ak.concatenate` makes of layouts read in
full, by its rows, and `unread` has a placeholder for each buffer of a form. -/
inductive Joined (α : Type) where
  | concatenated (rows : List (Val α))
  | unread (form : Form) (length : Nat)
  | record (n : Nat) (names : Option (List String)) (contents : Fin n → Joined α) (len : Nat)
  | listOffset (offsets : List Nat) (content : Joined α)
  | list (starts stops : List Nat) (content : Joined α)
  | regular (size : Nat) (content : Joined α) (zerosLength : Nat)
  | unmasked (content : Joined α)
  | indexed (option : Bool) (index : List Int) (content : Joined α)
  | union (n : Nat) (tags : List (Fin n)) (index : List Nat) (contents : Fin n → Joined α)

namespace Joined

def length : Joined α → Nat
  | concatenated rows => rows.length
  | unread _ n => n
  | record _ _ _ len => len
  | listOffset offsets _ => offsets.length - 1
  | list starts _ _ => starts.length
  | regular size content zerosLength => if size = 0 then zerosLength else content.length / size
  | unmasked content => content.length
  | indexed _ index _ => index.length
  | union _ tags _ _ => tags.length

/-- The rows, `unread` where a placeholder stands for them. -/
def rows : Joined α → List (Val α)
  | concatenated rows => rows
  | unread _ n => List.replicate n .unread
  | record _ names contents len => recordRows names (fun k => (contents k).rows) len
  | listOffset offsets content => lists (offsets.zip offsets.tail) content.rows
  | list starts stops content => lists (starts.zip stops) content.rows
  | regular size content zerosLength =>
      lists (regularSpans size (regular size content zerosLength).length) content.rows
  | unmasked content => content.rows
  | indexed _ index content => index.map (picked content.rows)
  | union _ tags index contents => (tags.zip index).map (chosen fun k => (contents k).rows)

end Joined

/-! ### Joining -/

/-- Differences of neighbours. -/
def diff : List Nat → List Nat
  | first :: second :: rest => (second - first) :: diff (second :: rest)
  | _ => []

/-- An index shifted to where its content starts. -/
def shiftIndex (start : Nat) (i : Int) : Int := if i < 0 then -1 else i + start

namespace Layout

/-- How many rows layouts have together. -/
def total (f : Form) (parts : List (Layout α f)) : Nat := (parts.map (length f)).sum

/-- `ak.concatenate` where all parts are read in full. -/
def concatenateOr (f : Form) (parts : List (Layout α f)) (joined : Joined α) : Joined α :=
  if parts.all (isRead f) then .concatenated (parts.flatMap (toList f)) else joined

/-- Joining option-type layouts by index. -/
def joinedIndexed (option : Bool) (content : Form) (join : List (Layout α content) → Joined α)
    (parts : List (Layout α (.indexed option content))) : Joined α :=
  concatenateOr (.indexed option content) parts
    (if parts.all (·.index.isRead) then
      .indexed option
        (rebased shiftIndex (parts.map fun p => length content p.content)
          (parts.map (·.index.items)))
        (join (parts.map (·.content)))
    else .unread (.indexed option content) (total _ parts))

/-- `to_IndexedOptionArray64`. -/
def byteIndexed {validWhen : Bool} {content : Form} (p : Layout α (.byteMasked validWhen content)) :
    Layout α (.indexed true content) :=
  ⟨.read (maskIndex validWhen p.mask.items), p.content⟩

def bitIndexed {validWhen : Bool} {content : Form} (p : Layout α (.bitMasked validWhen content)) :
    Layout α (.indexed true content) :=
  ⟨.read (maskIndex validWhen (p.mask.items.take p.len)), p.content⟩

/-- `_joined`. -/
def joined : (f : Form) → List (Layout α f) → Joined α
  | .numpy, parts => concatenateOr .numpy parts (.unread .numpy (total _ parts))
  | .record n names fields, parts =>
      concatenateOr (.record n names fields) parts
        (.record n names
          (fun k => joined (fields k) (parts.map fun p => slice 0 p.len (fields k) (p.contents k)))
          (total _ parts))
  | .listOffset content, parts =>
      concatenateOr (.listOffset content) parts
        (if parts.all (·.offsets.isRead) then
          .listOffset (0 :: cumsum (parts.flatMap fun p => diff p.offsets.items))
            (joined content (parts.map fun p =>
              slice (p.offsets.items.headD 0) (p.offsets.items.getLastD 0) content p.content))
        else .unread (.listOffset content) (total _ parts))
  | .list content, parts =>
      concatenateOr (.list content) parts
        (if parts.all fun p => p.starts.isRead && p.stops.isRead then
          -- rebased, not compacted: the contents stay as they are
          .list
            (rebased (fun s i => i + s) (parts.map fun p => length content p.content)
              (parts.map fun p => p.starts.items.take p.starts.length))
            (rebased (fun s i => i + s) (parts.map fun p => length content p.content)
              (parts.map fun p => p.stops.items.take p.starts.length))
            (joined content (parts.map (·.content)))
        else .unread (.list content) (total _ parts))
  | .regular size content, parts =>
      concatenateOr (.regular size content) parts
        (.regular size
          (joined content (parts.map fun p =>
            slice 0 (length (.regular size content) p * size) content p.content))
          (total _ parts))
  | .byteMasked validWhen content, parts =>
      concatenateOr (.byteMasked validWhen content) parts
        (if parts.all (·.mask.isRead) then
          joinedIndexed true content (joined content) (parts.map byteIndexed)
        else .unread (.byteMasked validWhen content) (total _ parts))
  | .bitMasked validWhen content, parts =>
      concatenateOr (.bitMasked validWhen content) parts
        (if parts.all (·.mask.isRead) then
          joinedIndexed true content (joined content) (parts.map bitIndexed)
        else .unread (.bitMasked validWhen content) (total _ parts))
  | .unmasked content, parts =>
      concatenateOr (.unmasked content) parts (.unmasked (joined content (parts.map (·.content))))
  | .indexed option content, parts => joinedIndexed option content (joined content) parts
  | .union n contents, parts =>
      concatenateOr (.union n contents) parts
        (if parts.all fun p => p.tags.isRead && p.index.isRead then
          .union n (parts.flatMap fun p => p.tags.items.take p.tags.length)
            (List.zipWith (fun p s =>
              List.zipWith (fun tag i => i + s tag) (p.tags.items.take p.tags.length)
                (p.index.items.take p.tags.length))
              parts (Gathering.starts
                (parts.map fun p k => length (contents k) (p.contents k)))).flatten
            (fun k => joined (contents k) (parts.map (·.contents k)))
        else .unread (.union n contents) (total _ parts))

/-- `concat`. -/
def concat (f : Form) (blocks : List (Layout α f)) : Joined α :=
  concatenateOr f blocks (joined f blocks)

end Layout

end Graphed.Blocks
