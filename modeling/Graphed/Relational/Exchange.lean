import Graphed.Execution.Plan
import Graphed.Library.Attempts
import Graphed.Library.Bytes
import Graphed.Library.Routing

/-!
# Exchanging blocks

The exchange primitives of both backends: a row goes to the destination a hash of its key picks, a
destination's blocks are concatenated in order, and blocks travel in a wire format that reads back.
-/

namespace Graphed.Exchange

open Bytes Routing

/-- A value a backend holds: the rows of a block, or something without rows. -/
inductive Held (ρ X : Type) where
  | block (rows : List ρ)
  | other (x : X)

variable {ρ X : Type}

/-- The destination of a key: its digest's first eight bytes modulo the destinations. A salt of zero
adds no bytes. -/
def route (sha256 : List UInt8 → List UInt8) (key : BitVec 64) (parts : Nat)
    (salt : BitVec 64) : Nat :=
  let keyBytes := (leBytes 8 key.toNat).reverse ++
    if salt = 0 then [] else (leBytes 8 salt.toNat).reverse
  ofLeBytes ((sha256 keyBytes).take 8).reverse % parts

def dests (sha256 : List UInt8 → List UInt8) (keys : List (BitVec 64)) (parts : Nat)
    (salt : BitVec 64) : List Nat :=
  keys.map fun k => route sha256 k parts salt

/-- `block[dest == d]`. -/
def selected (block : List ρ) (dest : List Nat) (d : Nat) : List ρ :=
  ((block.zip dest).filter fun row => row.2 == d).map Prod.fst

/-- What the primitives use of the libraries under them: the digest, a key field's column as unsigned
numbers, the wire format, and what they raise on a value without rows and on no blocks. -/
structure Backend (ρ X : Type) where
  sha256 : List UInt8 → List UInt8
  key : String → ρ → BitVec 64
  toWire : Held ρ X → List UInt8
  fromWire : List UInt8 → Except Raised (Held ρ X)
  fromWire_toWire : ∀ value, fromWire (toWire value) = .ok value
  notRows : Raised
  noBlocks : Raised

namespace Backend

variable (B : Backend ρ X)

def rows : Held ρ X → Except Raised (List ρ)
  | .block rows => .ok rows
  | .other _ => .error B.notRows

/-- Route each row by the hash of its key. -/
def partition (value : Held ρ X) (keyField : String) (parts : Nat) :
    Except Raised (List (Held ρ X)) := do
  let block ← B.rows value
  let dest := dests B.sha256 (block.map (B.key keyField)) parts 0
  .ok ((List.range parts).map fun d => .block (selected block dest d))

def sliceRows (value : Held ρ X) (start stop : Nat) : Except Raised (Held ρ X) := do
  let block ← B.rows value
  .ok (.block ((block.take stop).drop start))

/-- Concatenate blocks in order. -/
def concat (blocks : List (Held ρ X)) : Except Raised (Held ρ X) :=
  if blocks.isEmpty then .error B.noBlocks
  else do
    let rows ← blocks.mapM B.rows
    .ok (.block rows.flatten)

end Backend

/-! ### What the primitives do -/

theorem route_lt (sha256 : List UInt8 → List UInt8) (key : BitVec 64) {parts : Nat}
    (hparts : 0 < parts) (salt : BitVec 64) : route sha256 key parts salt < parts :=
  Nat.mod_lt _ hparts

theorem selected_map (block : List ρ) (dest : ρ → Nat) (d : Nat) :
    selected block (block.map dest) d = block.filter fun x => dest x = d := by
  induction block with
  | nil => rfl
  | cons x block ih =>
      unfold selected at ih ⊢
      rw [List.map_cons, List.zip_cons_cons, List.filter_cons, List.filter_cons]
      by_cases h : dest x = d
      · rw [if_pos (by simp [h]), if_pos (by simp [h]), List.map_cons, ih]
      · rw [if_neg (by simp [h]), if_neg (by simp [h]), ih]

/-- The partition of a block is its buckets. -/
theorem Backend.partition_block (B : Backend ρ X) (rows : List ρ) (keyField : String)
    (parts : Nat) : B.partition (.block rows) keyField parts =
      .ok ((buckets (fun x => route B.sha256 (B.key keyField x) parts 0) parts rows).map
        .block) := by
  unfold Backend.partition
  change Except.ok ((List.range parts).map _) = _
  rw [buckets, List.map_map]
  congr 1
  apply List.map_congr_left
  intro d _
  rw [Function.comp_apply, dests, List.map_map, selected_map]
  rfl

/-- Blocks join to the block of their rows. -/
theorem Backend.concat_blocks (B : Backend ρ X) {blocks : List (List ρ)} (hblocks : blocks ≠ []) :
    B.concat (blocks.map .block) = .ok (.block blocks.flatten) := by
  have hrows : (blocks.map Held.block).mapM B.rows = .ok blocks := by
    rw [Attempts.mapM_map]
    have h : blocks.mapM (fun rows => B.rows (.block rows)) = .ok (blocks.map id) :=
      Attempts.mapM_of_ok fun _ _ => rfl
    rwa [List.map_id] at h
  cases blocks with
  | nil => exact absurd rfl hblocks
  | cons rows rest =>
      unfold Backend.concat
      rw [hrows]
      rfl

end Graphed.Exchange
