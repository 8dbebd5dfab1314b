import Graphed.Library.Gathering
import Mathlib.Data.List.FinRange
import Mathlib.Data.List.Forall2

/-!
# Layouts a projected read leaves partly unread

An array is a tree of nodes over buffers. A projected read leaves the buffers it does not need as
placeholders, which know their length and hold nothing.
-/

namespace Graphed.Blocks

/-! ### Buffers -/

/-- A buffer as a read leaves it. -/
inductive Buffer (β : Type) where
  | read (items : List β)
  | placeholder (length : Nat)

namespace Buffer

variable {β : Type}

def length : Buffer β → Nat
  | read items => items.length
  | placeholder n => n

def isRead : Buffer β → Bool
  | read _ => true
  | placeholder _ => false

/-- What a buffer that was read holds. -/
def items : Buffer β → List β
  | read items => items
  | placeholder _ => []

def slice (start stop : Nat) : Buffer β → Buffer β
  | read items => read ((items.take stop).drop start)
  | placeholder n => placeholder (min stop n - start)

/-- The buffer is what a read of `whole` leaves. -/
def Leaves (b whole : Buffer β) : Prop := b.length = whole.length ∧ (b.isRead = true → b = whole)

end Buffer

/-! ### Forms and layouts -/

/-- The kinds of a layout's nodes. A tuple has no names. -/
inductive Form where
  | numpy
  | record (n : Nat) (names : Option (List String)) (fields : Fin n → Form)
  | listOffset (content : Form)
  | list (content : Form)
  | regular (size : Nat) (content : Form)
  | byteMasked (validWhen : Bool) (content : Form)
  | bitMasked (validWhen : Bool) (content : Form)
  | unmasked (content : Form)
  /-- An `IndexedArray`, or with `option` an `IndexedOptionArray`. -/
  | indexed (option : Bool) (content : Form)
  | union (n : Nat) (contents : Fin n → Form)

structure NumpyArray (α : Type) where
  data : Buffer α

structure RecordArray {n : Nat} (C : Fin n → Type) where
  contents : (k : Fin n) → C k
  len : Nat

structure ListOffsetArray (C : Type) where
  offsets : Buffer Nat
  content : C

structure ListArray (C : Type) where
  starts : Buffer Nat
  stops : Buffer Nat
  content : C

structure RegularArray (C : Type) where
  content : C
  zerosLength : Nat

structure ByteMaskedArray (C : Type) where
  mask : Buffer Bool
  content : C

/-- `mask` are the bits in the order of the rows, which may be fewer. -/
structure BitMaskedArray (C : Type) where
  mask : Buffer Bool
  len : Nat
  content : C

structure UnmaskedArray (C : Type) where
  content : C

structure IndexedArray (C : Type) where
  index : Buffer Int
  content : C

structure UnionArray {n : Nat} (C : Fin n → Type) where
  tags : Buffer (Fin n)
  index : Buffer Nat
  contents : (k : Fin n) → C k

/-- The layouts of a form, over leaves `α`. -/
def Layout (α : Type) : Form → Type
  | .numpy => NumpyArray α
  | .record _ _ fields => RecordArray fun k => Layout α (fields k)
  | .listOffset content => ListOffsetArray (Layout α content)
  | .list content => ListArray (Layout α content)
  | .regular _ content => RegularArray (Layout α content)
  | .byteMasked _ content => ByteMaskedArray (Layout α content)
  | .bitMasked _ content => BitMaskedArray (Layout α content)
  | .unmasked content => UnmaskedArray (Layout α content)
  | .indexed _ content => IndexedArray (Layout α content)
  | .union _ contents => UnionArray fun k => Layout α (contents k)

variable {α : Type}

namespace Layout

def length : (f : Form) → Layout α f → Nat
  | .numpy, p => p.data.length
  | .record _ _ _, p => p.len
  | .listOffset _, p => p.offsets.length - 1
  | .list _, p => p.starts.length
  | .regular size content, p => if size = 0 then p.zerosLength else length content p.content / size
  | .byteMasked _ _, p => p.mask.length
  | .bitMasked _ _, p => p.len
  | .unmasked content, p => length content p.content
  | .indexed _ _, p => p.index.length
  | .union _ _, p => p.tags.length

/-- `_is_read`: no buffer is a placeholder. -/
def isRead : (f : Form) → Layout α f → Bool
  | .numpy, p => p.data.isRead
  | .record n _ fields, p => (List.finRange n).all fun k => isRead (fields k) (p.contents k)
  | .listOffset content, p => p.offsets.isRead && isRead content p.content
  | .list content, p => p.starts.isRead && p.stops.isRead && isRead content p.content
  | .regular _ content, p => isRead content p.content
  | .byteMasked _ content, p => p.mask.isRead && isRead content p.content
  | .bitMasked _ content, p => p.mask.isRead && isRead content p.content
  | .unmasked content, p => isRead content p.content
  | .indexed _ content, p => p.index.isRead && isRead content p.content
  | .union n contents, p => p.tags.isRead && p.index.isRead &&
      (List.finRange n).all fun k => isRead (contents k) (p.contents k)

/-- `layout[start:stop]`. A slice of a bit mask is the slice of its bits. -/
def slice (start stop : Nat) : (f : Form) → Layout α f → Layout α f
  | .numpy, p => ⟨p.data.slice start stop⟩
  | .record _ _ fields, p =>
      ⟨fun k => slice start stop (fields k) (p.contents k), min stop p.len - start⟩
  | .listOffset _, p => ⟨p.offsets.slice start (stop + 1), p.content⟩
  | .list _, p => ⟨p.starts.slice start stop, p.stops.slice start stop, p.content⟩
  | .regular size content, p =>
      ⟨slice (start * size) (stop * size) content p.content, min stop p.zerosLength - start⟩
  | .byteMasked _ content, p => ⟨p.mask.slice start stop, slice start stop content p.content⟩
  | .bitMasked _ content, p =>
      ⟨p.mask.slice start stop, min stop p.len - start, slice start stop content p.content⟩
  | .unmasked content, p => ⟨slice start stop content p.content⟩
  | .indexed _ _, p => ⟨p.index.slice start stop, p.content⟩
  | .union _ _, p => ⟨p.tags.slice start stop, p.index.slice start stop, p.contents⟩

end Layout

/-! ### Rows -/

/-- A row's value; `unread` where a placeholder stands for it. -/
inductive Val (α : Type) where
  | leaf (a : α)
  | null
  | list (items : List (Val α))
  | record (names : Option (List String)) (fields : List (Val α))
  | unread

/-- `rows[start:stop]`. -/
def sub {β : Type} (rows : List β) (span : Nat × Nat) : List β := (rows.take span.2).drop span.1

def lists (spans : List (Nat × Nat)) (rows : List (Val α)) : List (Val α) :=
  spans.map fun span => .list (sub rows span)

/-- The spans of `n` lists of `size` items, one after the other. -/
def regularSpans (size n : Nat) : List (Nat × Nat) :=
  (List.range n).map fun i => (i * size, (i + 1) * size)

/-- A row by its index, which is negative where there is none. -/
def picked (rows : List (Val α)) (i : Int) : Val α :=
  if i < 0 then .null else rows.getD i.toNat .null

/-- A mask as an index into its content. -/
def maskIndex (validWhen : Bool) (mask : List Bool) : List Int :=
  mask.mapIdx fun i bit => if bit = validWhen then (i : Int) else -1

def chosen {n : Nat} (rows : Fin n → List (Val α)) (item : Fin n × Nat) : Val α :=
  (rows item.1).getD item.2 .null

def recordRows (names : Option (List String)) {n : Nat} (rows : Fin n → List (Val α))
    (length : Nat) : List (Val α) :=
  (List.range length).map fun i =>
    .record names ((List.finRange n).map fun k => (rows k).getD i .null)

/-- Which nodes of a form are read. Nodes with no buffer of their own are. -/
def Seen : Form → Type
  | .numpy => Bool × Unit
  | .record _ _ fields => (k : Fin _) → Seen (fields k)
  | .listOffset content => Bool × Seen content
  | .list content => Bool × Seen content
  | .regular _ content => Seen content
  | .byteMasked _ content => Bool × Seen content
  | .bitMasked _ content => Bool × Seen content
  | .unmasked content => Seen content
  | .indexed _ content => Bool × Seen content
  | .union _ contents => Bool × ((k : Fin _) → Seen (contents k))

namespace Layout

/-- The nodes whose buffers were read in each of these layouts. -/
def seen : (f : Form) → List (Layout α f) → Seen f
  | .numpy, ps => (ps.all (·.data.isRead), ())
  | .record _ _ fields, ps => fun k => seen (fields k) (ps.map (·.contents k))
  | .listOffset content, ps => (ps.all (·.offsets.isRead), seen content (ps.map (·.content)))
  | .list content, ps =>
      (ps.all fun p => p.starts.isRead && p.stops.isRead, seen content (ps.map (·.content)))
  | .regular _ content, ps => seen content (ps.map (·.content))
  | .byteMasked _ content, ps => (ps.all (·.mask.isRead), seen content (ps.map (·.content)))
  | .bitMasked _ content, ps => (ps.all (·.mask.isRead), seen content (ps.map (·.content)))
  | .unmasked content, ps => seen content (ps.map (·.content))
  | .indexed _ content, ps => (ps.all (·.index.isRead), seen content (ps.map (·.content)))
  | .union _ contents, ps =>
      (ps.all fun p => p.tags.isRead && p.index.isRead,
        fun k => seen (contents k) (ps.map (·.contents k)))

/-- The rows of a layout read in full, but for the nodes that are not `seen`. -/
def rows : (f : Form) → Seen f → Layout α f → List (Val α)
  | .numpy, s, p =>
      if s.1 = true then p.data.items.map .leaf else List.replicate (length .numpy p) .unread
  | .record _ names fields, s, p =>
      recordRows names (fun k => rows (fields k) (s k) (p.contents k)) p.len
  | .listOffset content, s, p =>
      if s.1 = true then
        lists (p.offsets.items.zip p.offsets.items.tail) (rows content s.2 p.content)
      else List.replicate (length (.listOffset content) p) .unread
  | .list content, s, p =>
      if s.1 = true then lists (p.starts.items.zip p.stops.items) (rows content s.2 p.content)
      else List.replicate (length (.list content) p) .unread
  | .regular size content, s, p =>
      lists (regularSpans size (length (.regular size content) p)) (rows content s p.content)
  | .byteMasked validWhen content, s, p =>
      if s.1 = true then
        (maskIndex validWhen p.mask.items).map (picked (rows content s.2 p.content))
      else List.replicate (length (.byteMasked validWhen content) p) .unread
  | .bitMasked validWhen content, s, p =>
      if s.1 = true then
        (maskIndex validWhen (p.mask.items.take p.len)).map (picked (rows content s.2 p.content))
      else List.replicate (length (.bitMasked validWhen content) p) .unread
  | .unmasked content, s, p => rows content s p.content
  | .indexed option content, s, p =>
      if s.1 = true then p.index.items.map (picked (rows content s.2 p.content))
      else List.replicate (length (.indexed option content) p) .unread
  | .union n contents, s, p =>
      if s.1 = true then
        (p.tags.items.zip p.index.items).map
          (chosen fun k => rows (contents k) (s.2 k) (p.contents k))
      else List.replicate (length (.union n contents) p) .unread

/-- The rows of a layout read in full. -/
def toList (f : Form) (p : Layout α f) : List (Val α) := rows f (seen f ([] : List (Layout α f))) p

/-! ### Chunks -/

/-- A layout read in full whose buffers fit together. -/
def Valid : (f : Form) → Layout α f → Prop
  | .numpy, p => p.data.isRead = true
  | .record _ _ fields, p =>
      ∀ k, Valid (fields k) (p.contents k) ∧ p.len ≤ length (fields k) (p.contents k)
  | .listOffset content, p => p.offsets.isRead = true ∧ p.offsets.items ≠ [] ∧
      p.offsets.items.Pairwise (· ≤ ·) ∧ (∀ o ∈ p.offsets.items, o ≤ length content p.content) ∧
      Valid content p.content
  | .list content, p => p.starts.isRead = true ∧ p.stops.isRead = true ∧
      p.starts.length ≤ p.stops.length ∧
      (∀ span ∈ p.starts.items.zip p.stops.items,
        span.1 = span.2 ∨ span.1 < span.2 ∧ span.2 ≤ length content p.content) ∧
      Valid content p.content
  | .regular _ content, p => Valid content p.content
  | .byteMasked _ content, p => p.mask.isRead = true ∧
      p.mask.length ≤ length content p.content ∧ Valid content p.content
  | .bitMasked _ content, p => p.mask.isRead = true ∧ p.len ≤ p.mask.length ∧
      p.len ≤ length content p.content ∧ Valid content p.content
  | .unmasked content, p => Valid content p.content
  | .indexed option content, p => p.index.isRead = true ∧
      (∀ i ∈ p.index.items, i < length content p.content ∧ (option = false → 0 ≤ i)) ∧
      Valid content p.content
  | .union _ contents, p => p.tags.isRead = true ∧ p.index.isRead = true ∧
      p.tags.length ≤ p.index.length ∧
      (∀ item ∈ p.tags.items.zip p.index.items,
        item.2 < length (contents item.1) (p.contents item.1)) ∧
      ∀ k, Valid (contents k) (p.contents k)

/-- The layout is what a read of `whole` leaves. Under a node that is not read, anything is. -/
def Leaves : (f : Form) → (p whole : Layout α f) → Prop
  | .numpy, p, whole => p.data.Leaves whole.data
  | .record _ _ fields, p, whole => p.len = whole.len ∧
      ∀ k, Leaves (fields k) (p.contents k) (whole.contents k)
  | .listOffset content, p, whole => p.offsets.Leaves whole.offsets ∧
      (p.offsets.isRead = true → Leaves content p.content whole.content)
  | .list content, p, whole => p.starts.Leaves whole.starts ∧ p.stops.Leaves whole.stops ∧
      (p.starts.isRead = true ∧ p.stops.isRead = true → Leaves content p.content whole.content)
  | .regular _ content, p, whole => p.zerosLength = whole.zerosLength ∧
      Leaves content p.content whole.content
  | .byteMasked _ content, p, whole => p.mask.Leaves whole.mask ∧
      (p.mask.isRead = true → Leaves content p.content whole.content)
  | .bitMasked _ content, p, whole => p.mask.Leaves whole.mask ∧ p.len = whole.len ∧
      (p.mask.isRead = true → Leaves content p.content whole.content)
  | .unmasked content, p, whole => Leaves content p.content whole.content
  | .indexed _ content, p, whole => p.index.Leaves whole.index ∧
      (p.index.isRead = true → Leaves content p.content whole.content)
  | .union _ contents, p, whole => p.tags.Leaves whole.tags ∧ p.index.Leaves whole.index ∧
      (p.tags.isRead = true ∧ p.index.isRead = true →
        ∀ k, Leaves (contents k) (p.contents k) (whole.contents k))

end Layout

/-- A chunk: all its buffers, and what a projected read leaves of it. -/
structure Chunk (α : Type) (f : Form) where
  whole : Layout α f
  part : Layout α f
  valid : whole.Valid f
  leaves : part.Leaves f whole

end Graphed.Blocks
