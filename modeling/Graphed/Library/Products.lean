import Mathlib.Data.List.Perm.Basic
import Mathlib.Data.List.Perm.Subperm

/-!
# Products by an operation that may fail

A product of some things multiplies each of them once, in any bracketing and any order. Where the
operation is total, commutative and associative there is one product; where it may fail, what its
products keep of their factors is what one multiplication keeps.
-/

namespace Graphed

variable {ι V : Type}

/-- `v` is a product over these things, each used once. -/
inductive Product (value : ι → V) (Mul : V → V → V → Prop) : List ι → V → Prop
  | one (i : ι) : Product value Mul [i] (value i)
  | mul {is js : List ι} {a b c : V} : Product value Mul is a → Product value Mul js b →
      Mul a b c → Product value Mul (is ++ js) c
  | perm {is js : List ι} {a : V} : Product value Mul is a → is.Perm js → Product value Mul js a

/-- The product of some values, from the left. -/
def productOf (op : V → V → V) : List V → Option V
  | [] => none
  | v :: vs => some (vs.foldl op v)

section Total

variable {op : V → V → V} (hassoc : ∀ a b c, op (op a b) c = op a (op b c))
  (hcomm : ∀ a b, op a b = op b a)

include hassoc in
theorem foldl_op (a b : V) (vs : List V) : vs.foldl op (op a b) = op a (vs.foldl op b) := by
  induction vs generalizing b with
  | nil => rfl
  | cons v vs ih => rw [List.foldl_cons, List.foldl_cons, hassoc, ih]

include hassoc in
theorem productOf_append {vs ws : List V} {a b : V} (ha : productOf op vs = some a)
    (hb : productOf op ws = some b) : productOf op (vs ++ ws) = some (op a b) := by
  cases vs with
  | nil => cases ha
  | cons v vs =>
      cases ws with
      | nil => cases hb
      | cons w ws =>
          obtain rfl := Option.some.inj ha
          obtain rfl := Option.some.inj hb
          simp only [productOf, List.cons_append, List.foldl_append, List.foldl_cons]
          rw [foldl_op hassoc]

include hassoc hcomm in
theorem productOf_perm {vs ws : List V} (h : vs.Perm ws) : productOf op vs = productOf op ws := by
  induction h with
  | nil => rfl
  | @cons v vs ws hperm ih =>
      cases vs with
      | nil =>
          obtain rfl := hperm.nil_eq
          rfl
      | cons u vs =>
          cases ws with
          | nil => exact absurd hperm.length_eq (Nat.succ_ne_zero _)
          | cons t ws =>
              have heq : vs.foldl op u = ws.foldl op t := Option.some.inj ih
              simp only [productOf, List.foldl_cons]
              rw [foldl_op hassoc, foldl_op hassoc, heq]
  | swap a b vs =>
      simp only [productOf, List.foldl_cons]
      rw [hcomm]
  | trans _ _ ih ih' => exact ih.trans ih'

include hassoc hcomm in
/-- There is one product, whatever the bracketing and the order. -/
theorem Product.eq_productOf {value : ι → V} {Mul : V → V → V → Prop}
    (hmul : ∀ a b c, Mul a b c → c = op a b) {is : List ι} {v : V}
    (h : Product value Mul is v) : productOf op (is.map value) = some v := by
  induction h with
  | one i => rfl
  | mul _ _ hc ih ih' =>
      rw [List.map_append, productOf_append hassoc ih ih', hmul _ _ _ hc]
  | perm _ hperm ih => rw [← ih, productOf_perm hassoc hcomm (hperm.map value)]

end Total

theorem Product.ne_nil {value : ι → V} {Mul : V → V → V → Prop} {is : List ι} {v : V}
    (h : Product value Mul is v) : is ≠ [] := by
  induction h with
  | one i => exact List.cons_ne_nil _ _
  | mul _ _ _ ih _ => exact fun h => ih (List.append_eq_nil_iff.mp h).1
  | perm _ hperm ih => exact fun h => ih (List.perm_nil.mp (h ▸ hperm))

/-- What holds of the things and is kept by one multiplication holds of a product. -/
theorem Product.induct {value : ι → V} {Mul : V → V → V → Prop} (Keeps : List ι → V → Prop)
    (hone : ∀ i, Keeps [i] (value i))
    (hmul : ∀ {is js a b c}, Keeps is a → Keeps js b → Mul a b c → Keeps (is ++ js) c)
    (hperm : ∀ {is js a}, Keeps is a → is.Perm js → Keeps js a) {is : List ι} {v : V}
    (h : Product value Mul is v) : Keeps is v := by
  induction h with
  | one i => exact hone i
  | mul _ _ hc ih ih' => exact hmul ih ih' hc
  | perm _ hp ih => exact hperm ih hp

end Graphed
