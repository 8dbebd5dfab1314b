import Graphed.Checkpoint.Objects
import Graphed.Checkpoint.Shuffle

/-!
# Task keys

A resumable plan files each task under a hash of what its result depends on: the process as it is
pickled for a key, the codec of a plan of one stage, the salt and the partition; of a staged plan
also the stage, its routing, the task's number and the keys of the tasks upstream. A recipe is what
a key is made of. Two recipes with one key are one, as long as their partitions are whole.
-/

namespace Graphed

open Bytes JsonText

/-! ### Digests -/

/-- Two hexadecimal digits a byte. -/
def hexText (bs : BlobData) : String :=
  String.ofList (bs.flatMap fun b => Text.hexDigits 2 b.toNat)

theorem hexText_injective : Function.Injective hexText := by
  intro xs ys h
  have hchars := String.ofList_inj.mp h
  clear h
  induction xs generalizing ys with
  | nil =>
      cases ys with
      | nil => rfl
      | cons y ys =>
          have hlength := congrArg List.length hchars
          simp at hlength
          omega
  | cons x xs ih =>
      cases ys with
      | nil =>
          have hlength := congrArg List.length hchars
          simp at hlength
      | cons y ys =>
          simp only [List.flatMap_cons] at hchars
          obtain ⟨hfirst, hrest⟩ := List.append_inj hchars (by simp)
          have hbyte := Text.hexDigits_inj (by simpa using x.toNat_lt) (by simpa using y.toNat_lt)
            hfirst
          rw [UInt8.toNat.inj hbyte, ih hrest]

/-- A digest without collisions. -/
structure Digest where
  raw : BlobData → BlobData
  injective : Function.Injective raw
  nonempty : ∀ data, raw data ≠ []

def Digest.hex (D : Digest) (data : BlobData) : String := hexText (D.raw data)

theorem Digest.hex_injective (D : Digest) : Function.Injective D.hex :=
  hexText_injective.comp D.injective

theorem Digest.hex_ne_empty (D : Digest) (data : BlobData) : D.hex data ≠ "" := by
  intro h
  have hnil : hexText (D.raw data) = hexText [] := h
  exact D.nonempty data (hexText_injective hnil)

/-! ### Pickling for a key -/

variable {O V : Type}

/-- What is pickled of a task. -/
inductive KeyTuple (O : Type) where
  | chunk (process codec : O) (behaviors : List BlobData)
  | stage (process : O) (behaviors : List BlobData)

/-- How objects are pickled for a key, or refused. A pickle starts with the byte of its protocol. -/
structure Pickling (O : Type) where
  pickle : KeyTuple O → Except Raised BlobData
  injective : ∀ {x y : KeyTuple O} {bs : BlobData}, pickle x = .ok bs → pickle y = .ok bs → x = y
  header : ∀ {x : KeyTuple O} {bs : BlobData}, pickle x = .ok bs → bs.head? = some 0x80
  size : ∀ {x : KeyTuple O} {bs : BlobData}, pickle x = .ok bs → bs.length < 2 ^ 63

/-- What is hashed behind its length starts with a smaller byte than a pickle. -/
theorem Pickling.ne_framed (P : Pickling O) {x : KeyTuple O} {bs : BlobData}
    {parts : List BlobData} (hx : P.pickle x = .ok bs) : framed parts ≠ .ok bs := by
  intro h
  have hhead := P.header hx
  have hsize := P.size hx
  cases parts with
  | nil =>
      obtain rfl := Except.ok.inj h
      cases hhead
  | cons part parts =>
      obtain ⟨length, rest, hlength, -, rfl⟩ := framed_cons.mp h
      obtain ⟨-, rfl⟩ := lengthBytes_ok hlength
      have hpart : part.length < 2 ^ 63 := by
        simp only [List.length_append] at hsize
        omega
      have hfirst : (leBytes 8 part.length).reverse.head? =
          some (UInt8.ofNat (part.length / 2 ^ 56)) := by
        simp only [leBytes, List.reverse_cons, Nat.div_div_eq_div_mul]
        rfl
      rw [List.head?_append, hfirst, Option.some_or, Option.some.injEq] at hhead
      have hbyte := congrArg UInt8.toNat hhead
      rw [UInt8.toNat_ofNat'] at hbyte
      have hsmall : part.length / 2 ^ 56 < 2 ^ 7 := by omega
      have hvalue : part.length / 2 ^ 56 % 2 ^ 8 = 128 := hbyte
      omega

/-! ### Keys -/

def execTaskDomain : BlobData := utf8 "graphed-exec-task-v1"

def execTaskId (D : Digest) (ident salt : String) (p : Partition) : Except Raised String :=
  sha256Hex D.hex [execTaskDomain, utf8 ident, utf8 salt, partitionBytes p]

/-- What identifies a plan of one stage: of a durable one, its graph too. -/
def chunkIdent (D : Digest) (ir : Option BlobData) (body : BlobData) : Except Raised String :=
  match ir with
  | some ir => sha256Hex D.hex [ir, D.raw body]
  | none => .ok (D.hex body)

/-- What identifies a task of a stage. -/
def blockIdent (D : Digest) (ir : BlobData) (index : Nat) (kind : String) (routing : Fields)
    (key : Int) (body : BlobData) (upstream : List String) : Except Raised String :=
  sha256Hex D.hex ([ir, utf8 index.repr, utf8 kind, jsonBytes routing, utf8 key.repr,
    D.raw body] ++ upstream.map utf8)

def chunkIds (D : Digest) (P : Pickling O) (ir : Option BlobData) (process codec : O)
    (behaviors : List BlobData) (salt : String) (partitions : List Partition) :
    Except Raised (List String) := do
  let body ← P.pickle (.chunk process codec behaviors)
  let ident ← chunkIdent D ir body
  partitions.mapM (execTaskId D ident salt)

/-- The keys of a stage's tasks, from those of the stages before it. -/
def stageIds (D : Digest) (P : Pickling O) (ir : BlobData) (behaviors : List BlobData)
    (salt : String) (ids : List (List String)) (stage : ObjectStage O) :
    Except Raised (List String) := do
  let body ← P.pickle (.stage stage.process behaviors)
  let upstream ← stageInputs ids stage.inputs
  stage.tasks.mapM fun task => do
    let ident ← blockIdent D ir ids.length stage.kind stage.routing task.key body upstream
    execTaskId D ident salt task.partition

/-- The keys of every stage's tasks. -/
def stagedIds (D : Digest) (P : Pickling O) (ir : BlobData) (behaviors : List BlobData)
    (salt : String) (stages : List (ObjectStage O)) : Except Raised (List (List String)) :=
  stages.foldlM (fun ids stage => do
    let stage ← stageIds D P ir behaviors salt ids stage
    .ok (ids ++ [stage])) []

/-! ### Recipes -/

/-- What a task's key is made of. -/
inductive Recipe (O : Type) where
  | chunk (ir : Option BlobData) (process codec : O) (behaviors : List BlobData) (salt : String)
      (partition : Partition)
  | block (ir : BlobData) (index : Nat) (kind : String) (routing : Fields) (process : O)
      (behaviors : List BlobData) (salt : String) (task : Task) (upstream : List (Recipe O))

namespace Recipe

mutual

def key (D : Digest) (P : Pickling O) : Recipe O → Except Raised String
  | .chunk ir process codec behaviors salt partition => do
      let body ← P.pickle (.chunk process codec behaviors)
      let ident ← chunkIdent D ir body
      execTaskId D ident salt partition
  | .block ir index kind routing process behaviors salt task upstream => do
      let body ← P.pickle (.stage process behaviors)
      let ids ← keys D P upstream
      let ident ← blockIdent D ir index kind routing task.key body ids
      execTaskId D ident salt task.partition

def keys (D : Digest) (P : Pickling O) : List (Recipe O) → Except Raised (List String)
  | [] => .ok []
  | recipe :: rest => do
      let id ← recipe.key D P
      let ids ← keys D P rest
      .ok (id :: ids)

end

mutual

/-- The bytes a store holds of the task's result. -/
def payload (py : Objects O V) : Recipe O → Except Raised BlobData
  | .chunk _ process codec behaviors _ partition =>
      (py.call process behaviors partition).map fun c => (py.codec codec).encode c.value
  | .block _ _ _ _ process behaviors _ task upstream => do
      let inputs ← payloads py upstream
      py.callStage process behaviors task inputs

def payloads (py : Objects O V) : List (Recipe O) → Except Raised (List BlobData)
  | [] => .ok []
  | recipe :: rest => do
      let data ← recipe.payload py
      let others ← payloads py rest
      .ok (data :: others)

end

mutual

/-- Every partition in it is whole. -/
def Whole : Recipe O → Prop
  | .chunk _ _ _ _ _ partition => partition.WholeStep
  | .block _ _ _ _ _ _ _ task upstream => task.partition.WholeStep ∧ AllWhole upstream

def AllWhole : List (Recipe O) → Prop
  | [] => True
  | recipe :: rest => recipe.Whole ∧ AllWhole rest

end

end Recipe

/-! ### What a key tells -/

section Tells

variable {D : Digest} {P : Pickling O} {id ident ident' : String}

theorem execTaskId_inj {salt salt' : String} {p q : Partition}
    (hp : execTaskId D ident salt p = .ok id) (hq : execTaskId D ident' salt' q = .ok id) :
    ident = ident' ∧ salt = salt' ∧ p.jsonKey = q.jsonKey := by
  have hparts := sha256Hex_inj D.hex_injective hp hq
  simp only [List.cons.injEq, and_true, true_and, utf8_inj] at hparts
  exact ⟨hparts.1, hparts.2.1, partitionBytes_inj hparts.2.2⟩

theorem chunkIdent_inj {ir ir' : Option BlobData} {x y : KeyTuple O} {body body' : BlobData}
    (hbody : P.pickle x = .ok body) (hbody' : P.pickle y = .ok body')
    (h : chunkIdent D ir body = .ok ident) (h' : chunkIdent D ir' body' = .ok ident) :
    ir = ir' ∧ x = y := by
  cases ir with
  | none =>
      cases ir' with
      | none =>
          have hhex : D.hex body = D.hex body' := Except.ok.inj (h.trans h'.symm)
          obtain rfl := D.hex_injective hhex
          exact ⟨rfl, P.injective hbody hbody'⟩
      | some ir' =>
          obtain ⟨bs, hframed, hhex⟩ := map_ok_iff.mp h'
          obtain rfl := D.hex_injective (hhex.trans (Except.ok.inj h).symm)
          exact absurd hframed (P.ne_framed hbody)
  | some ir =>
      cases ir' with
      | none =>
          obtain ⟨bs, hframed, hhex⟩ := map_ok_iff.mp h
          obtain rfl := D.hex_injective (hhex.trans (Except.ok.inj h').symm)
          exact absurd hframed (P.ne_framed hbody')
      | some ir' =>
          have hparts := sha256Hex_inj D.hex_injective h h'
          simp only [List.cons.injEq, and_true] at hparts
          obtain ⟨rfl, hraw⟩ := hparts
          obtain rfl := D.injective hraw
          exact ⟨rfl, P.injective hbody hbody'⟩

theorem blockIdent_inj {ir ir' : BlobData} {index index' : Nat} {kind kind' : String}
    {routing routing' : Fields} {key key' : Int} {body body' : BlobData}
    {upstream upstream' : List String}
    (h : blockIdent D ir index kind routing key body upstream = .ok ident)
    (h' : blockIdent D ir' index' kind' routing' key' body' upstream' = .ok ident) :
    ir = ir' ∧ index = index' ∧ kind = kind' ∧ routing = routing' ∧ key = key' ∧ body = body' ∧
      upstream = upstream' := by
  have hparts := sha256Hex_inj D.hex_injective h h'
  simp only [List.cons_append, List.nil_append, List.cons.injEq, utf8_inj] at hparts
  obtain ⟨hir, hindex, hkind, hrouting, hkey, hbody, hupstream⟩ := hparts
  exact ⟨hir, repr_nat_inj hindex, hkind, jsonBytes_inj hrouting, repr_int_inj hkey,
    D.injective hbody, List.map_injective_iff.mpr (fun _ _ => utf8_inj.mp) hupstream⟩

/-- A plan of one stage and a stage are never identified alike. -/
theorem chunkIdent_ne_blockIdent {ir : Option BlobData} {ir' : BlobData} {x : KeyTuple O}
    {body body' : BlobData} {index : Nat} {kind : String} {routing : Fields} {key : Int}
    {upstream : List String} (hbody : P.pickle x = .ok body)
    (h : chunkIdent D ir body = .ok ident) :
    blockIdent D ir' index kind routing key body' upstream ≠ .ok ident := by
  intro h'
  cases ir with
  | none =>
      obtain ⟨bs, hframed, hhex⟩ := map_ok_iff.mp h'
      obtain rfl := D.hex_injective (hhex.trans (Except.ok.inj h).symm)
      exact P.ne_framed hbody hframed
  | some ir =>
      have hlength := congrArg List.length (sha256Hex_inj D.hex_injective h h')
      simp only [List.length_append, List.length_cons, List.length_nil] at hlength
      omega

end Tells

namespace Recipe

variable {D : Digest} {P : Pickling O} {py : Objects O V}

theorem keys_eq_ok {rs : List (Recipe O)} {ids : List String} :
    keys D P rs = .ok ids ↔ List.Forall₂ (fun r id => r.key D P = .ok id) rs ids := by
  induction rs generalizing ids with
  | nil => rw [keys, List.forall₂_nil_left_iff, Except.ok.injEq, eq_comm]
  | cons r rs ih =>
      rw [List.forall₂_cons_left_iff]
      constructor
      · intro h
        obtain ⟨id, hid, h⟩ := bind_ok_iff.mp h
        obtain ⟨rest, hrest, h⟩ := bind_ok_iff.mp h
        exact ⟨id, rest, hid, ih.mp hrest, (Except.ok.inj h).symm⟩
      · rintro ⟨id, rest, hid, hrest, rfl⟩
        exact bind_ok_iff.mpr ⟨id, hid, bind_ok_iff.mpr ⟨rest, ih.mpr hrest, rfl⟩⟩

theorem payloads_eq_ok {rs : List (Recipe O)} {datas : List BlobData} :
    payloads py rs = .ok datas ↔ List.Forall₂ (fun r data => r.payload py = .ok data) rs datas := by
  induction rs generalizing datas with
  | nil => rw [payloads, List.forall₂_nil_left_iff, Except.ok.injEq, eq_comm]
  | cons r rs ih =>
      rw [List.forall₂_cons_left_iff]
      constructor
      · intro h
        obtain ⟨data, hdata, h⟩ := bind_ok_iff.mp h
        obtain ⟨rest, hrest, h⟩ := bind_ok_iff.mp h
        exact ⟨data, rest, hdata, ih.mp hrest, (Except.ok.inj h).symm⟩
      · rintro ⟨data, rest, hdata, hrest, rfl⟩
        exact bind_ok_iff.mpr ⟨data, hdata, bind_ok_iff.mpr ⟨rest, ih.mpr hrest, rfl⟩⟩

mutual

/-- **A key tells the recipe.** By induction on the recipe: the keys upstream are in a block's. -/
theorem key_inj {r r' : Recipe O} {id : String} (hr : r.Whole) (hr' : r'.Whole)
    (h : r.key D P = .ok id) (h' : r'.key D P = .ok id) : r = r' := by
  cases r with
  | chunk ir process codec behaviors salt partition =>
      obtain ⟨body, hbody, h⟩ := bind_ok_iff.mp h
      obtain ⟨ident, hident, h⟩ := bind_ok_iff.mp h
      cases r' with
      | chunk ir' process' codec' behaviors' salt' partition' =>
          obtain ⟨body', hbody', h'⟩ := bind_ok_iff.mp h'
          obtain ⟨ident', hident', h'⟩ := bind_ok_iff.mp h'
          obtain ⟨rfl, rfl, hkey⟩ := execTaskId_inj h h'
          obtain ⟨rfl, hsame⟩ := chunkIdent_inj hbody hbody' hident hident'
          obtain ⟨rfl, rfl, rfl⟩ := KeyTuple.chunk.inj hsame
          rw [Partition.eq_of_jsonKey hr hr' hkey]
      | block ir' index kind routing process' behaviors' salt' task upstream =>
          obtain ⟨body', -, h'⟩ := bind_ok_iff.mp h'
          obtain ⟨ids, -, h'⟩ := bind_ok_iff.mp h'
          obtain ⟨ident', hident', h'⟩ := bind_ok_iff.mp h'
          obtain ⟨rfl, -, -⟩ := execTaskId_inj h h'
          exact absurd hident' (chunkIdent_ne_blockIdent hbody hident)
  | block ir index kind routing process behaviors salt task upstream =>
      obtain ⟨body, hbody, h⟩ := bind_ok_iff.mp h
      obtain ⟨ids, hids, h⟩ := bind_ok_iff.mp h
      obtain ⟨ident, hident, h⟩ := bind_ok_iff.mp h
      cases r' with
      | chunk ir' process' codec' behaviors' salt' partition' =>
          obtain ⟨body', hbody', h'⟩ := bind_ok_iff.mp h'
          obtain ⟨ident', hident', h'⟩ := bind_ok_iff.mp h'
          obtain ⟨rfl, -, -⟩ := execTaskId_inj h h'
          exact absurd hident (chunkIdent_ne_blockIdent hbody' hident')
      | block ir' index' kind' routing' process' behaviors' salt' task' upstream' =>
          obtain ⟨body', hbody', h'⟩ := bind_ok_iff.mp h'
          obtain ⟨ids', hids', h'⟩ := bind_ok_iff.mp h'
          obtain ⟨ident', hident', h'⟩ := bind_ok_iff.mp h'
          obtain ⟨rfl, rfl, hpartition⟩ := execTaskId_inj h h'
          obtain ⟨rfl, rfl, rfl, rfl, hkey, rfl, rfl⟩ := blockIdent_inj hident hident'
          obtain ⟨rfl, rfl⟩ := KeyTuple.stage.inj (P.injective hbody hbody')
          obtain rfl := keys_inj hr.2 hr'.2 hids hids'
          obtain ⟨n, p⟩ := task
          obtain ⟨n', p'⟩ := task'
          obtain rfl : n = n' := hkey
          obtain rfl : p = p' := Partition.eq_of_jsonKey hr.1 hr'.1 hpartition
          rfl

theorem keys_inj {rs rs' : List (Recipe O)} {ids : List String} (hrs : AllWhole rs)
    (hrs' : AllWhole rs') (h : keys D P rs = .ok ids) (h' : keys D P rs' = .ok ids) :
    rs = rs' := by
  cases rs with
  | nil =>
      obtain rfl := Except.ok.inj h
      cases rs' with
      | nil => rfl
      | cons r' rs' =>
          obtain ⟨_, -, h'⟩ := bind_ok_iff.mp h'
          obtain ⟨_, -, h'⟩ := bind_ok_iff.mp h'
          cases h'
  | cons r rs =>
      obtain ⟨id, hid, h⟩ := bind_ok_iff.mp h
      obtain ⟨others, hothers, h⟩ := bind_ok_iff.mp h
      obtain rfl := Except.ok.inj h
      cases rs' with
      | nil => cases h'
      | cons r' rs' =>
          obtain ⟨id', hid', h'⟩ := bind_ok_iff.mp h'
          obtain ⟨others', hothers', h'⟩ := bind_ok_iff.mp h'
          obtain ⟨rfl, rfl⟩ := List.cons.inj (Except.ok.inj h')
          rw [key_inj hrs.1 hrs'.1 hid hid', keys_inj hrs.2 hrs'.2 hothers hothers']

end

theorem allWhole_iff {rs : List (Recipe O)} : AllWhole rs ↔ ∀ r ∈ rs, r.Whole := by
  induction rs with
  | nil => simp [AllWhole]
  | cons r rs ih => simp [AllWhole, ih]

end Recipe

/-! ### The recipes of a plan -/

/-- The recipes of a stage's tasks, from those of the stages before it. -/
def stageRecipes (ir : BlobData) (behaviors : List BlobData) (salt : String)
    (before : List (List (Recipe O))) (stage : ObjectStage O) : List (Recipe O) :=
  stage.tasks.map fun task => .block ir before.length stage.kind stage.routing stage.process
    behaviors salt task (stage.inputs.flatMap fun dep => before.getD dep [])

def stagedRecipes (ir : BlobData) (behaviors : List BlobData) (salt : String)
    (stages : List (ObjectStage O)) : List (List (Recipe O)) :=
  stages.foldl (fun before stage => before ++ [stageRecipes ir behaviors salt before stage]) []

/-- What a stage reads is related to what it would read elsewhere. -/
theorem stageInputs_rel {α γ : Type} {R : α → γ → Prop} {before : List (List α)}
    {blocks : List (List γ)} (h : List.Forall₂ (List.Forall₂ R) before blocks) {inputs : List Nat}
    {upstream : List γ} (hgather : stageInputs blocks inputs = .ok upstream) :
    List.Forall₂ R (inputs.flatMap fun dep => before.getD dep []) upstream := by
  have hok : gatherInputs blocks inputs = .ok upstream := by
    unfold stageInputs at hgather
    split at hgather
    · obtain rfl := Except.ok.inj hgather
      assumption
    · cases hgather
  clear hgather
  induction inputs generalizing upstream with
  | nil =>
      obtain rfl := Except.ok.inj hok
      exact List.Forall₂.nil
  | cons dep deps ih =>
      obtain ⟨block, rest, hblock, hrest, rfl⟩ := gatherInputs_cons.mp hok
      rw [List.flatMap_cons]
      refine List.rel_append ?_ (ih hrest)
      obtain ⟨hlt, rfl⟩ := List.getElem?_eq_some_iff.mp hblock
      have hlt' : dep < before.length := by rw [h.length_eq]; exact hlt
      rw [List.getD_eq_getElem?_getD, List.getElem?_eq_getElem hlt', Option.getD_some]
      exact h.get hlt' hlt

section PlanKeys

variable {D : Digest} {P : Pickling O} {behaviors : List BlobData} {salt : String}

theorem forall₂_of_mapM {α γ : Type} {f : α → Except Raised γ} {xs : List α} {ys : List γ}
    (h : xs.mapM f = .ok ys) : List.Forall₂ (fun x y => f x = .ok y) xs ys := by
  induction xs generalizing ys with
  | nil =>
      obtain rfl := Except.ok.inj h
      exact List.Forall₂.nil
  | cons x xs ih =>
      rw [List.mapM_cons] at h
      obtain ⟨y, hy, h⟩ := bind_ok_iff.mp h
      obtain ⟨rest, hrest, h⟩ := bind_ok_iff.mp h
      obtain rfl := Except.ok.inj h
      exact List.Forall₂.cons hy (ih hrest)

/-- The keys of a plan of one stage are those of its recipes. -/
theorem chunkIds_recipes {ir : Option BlobData} {process codec : O} {partitions : List Partition}
    {ids : List String} (h : chunkIds D P ir process codec behaviors salt partitions = .ok ids) :
    List.Forall₂ (fun p id =>
      (Recipe.chunk ir process codec behaviors salt p).key D P = .ok id) partitions ids := by
  obtain ⟨body, hbody, h⟩ := bind_ok_iff.mp h
  obtain ⟨ident, hident, h⟩ := bind_ok_iff.mp h
  refine (forall₂_of_mapM h).imp ?_
  intro p id hid
  exact bind_ok_iff.mpr ⟨body, hbody, bind_ok_iff.mpr ⟨ident, hident, hid⟩⟩

/-- The keys of a stage are those of its recipes, when those before it are. -/
theorem stageIds_recipes {ir : BlobData} {before : List (List (Recipe O))}
    {ids : List (List String)} {stage : ObjectStage O} {out : List String}
    (hbefore : List.Forall₂ (List.Forall₂ fun r id => r.key D P = .ok id) before ids)
    (h : stageIds D P ir behaviors salt ids stage = .ok out) :
    List.Forall₂ (fun r id => r.key D P = .ok id)
      (stageRecipes ir behaviors salt before stage) out := by
  obtain ⟨body, hbody, h⟩ := bind_ok_iff.mp h
  obtain ⟨upstream, hupstream, h⟩ := bind_ok_iff.mp h
  have hkeys := Recipe.keys_eq_ok.mpr (stageInputs_rel hbefore hupstream)
  unfold stageRecipes
  rw [List.forall₂_map_left_iff]
  refine (forall₂_of_mapM h).imp ?_
  intro task id hid
  obtain ⟨ident, hident, hid⟩ := bind_ok_iff.mp hid
  rw [← hbefore.length_eq] at hident
  exact bind_ok_iff.mpr ⟨body, hbody, bind_ok_iff.mpr ⟨upstream, hkeys,
    bind_ok_iff.mpr ⟨ident, hident, hid⟩⟩⟩

end PlanKeys

end Graphed
