import Graphed.Library.Json

/-!
# JSON text with blanks

A writer may leave a blank after each comma and colon; the value is read back all the same.
-/

namespace JsonText

mutual

/-- A value's text, a blank after each comma and colon. -/
def dumps : Value → List Char
  | .word w => w.text
  | .num n => n.text
  | .str s => quote s
  | .arr .nil => ['[', ']']
  | .arr (.cons v rest) => '[' :: dumps v ++ dumpsItems rest
  | .obj .nil => ['{', '}']
  | .obj (.cons key v rest) => '{' :: quote key ++ ':' :: ' ' :: dumps v ++ dumpsFields rest

/-- What follows an item of a list. -/
def dumpsItems : Items → List Char
  | .nil => [']']
  | .cons v rest => ',' :: ' ' :: dumps v ++ dumpsItems rest

/-- What follows an item of a dict. -/
def dumpsFields : Fields → List Char
  | .nil => ['}']
  | .cons key v rest => ',' :: ' ' :: quote key ++ ':' :: ' ' :: dumps v ++ dumpsFields rest

end

theorem dumps_head (v : Value) : ∃ c cs, dumps v = c :: cs ∧ Starts c := by
  cases v with
  | word w => exact dump_head (.word w)
  | num n => exact dump_head (.num n)
  | str s => exact dump_head (.str s)
  | arr items => cases items <;> exact ⟨_, _, rfl, by constructor <;> decide⟩
  | obj fields => cases fields <;> exact ⟨_, _, rfl, by constructor <;> decide⟩

theorem skipSpace_dumps (v : Value) (rest : List Char) :
    skipSpace (dumps v ++ rest) = dumps v ++ rest := by
  obtain ⟨c, cs, hdumps, hc⟩ := dumps_head v
  rw [hdumps, List.cons_append, skipSpace_cons hc.space]

theorem skipSpace_blank (cs : List Char) : skipSpace (' ' :: cs) = skipSpace cs := rfl

theorem dumpsItems_head (items : Items) : ∃ c cs, dumpsItems items = c :: cs ∧
    isSpace c = false ∧ isNumberChar c = false := by
  cases items <;> exact ⟨_, _, rfl, by decide, by decide⟩

theorem dumpsFields_head (fields : Fields) : ∃ c cs, dumpsFields fields = c :: cs ∧
    isSpace c = false ∧ isNumberChar c = false := by
  cases fields <;> exact ⟨_, _, rfl, by decide, by decide⟩

mutual

/-- A written value is read back, by recursion on the value. -/
theorem readValue_dumps (v : Value) {n : Nat} (hn : (dumps v).length ≤ n) {rest : List Char}
    (hrest : Follows rest) : readValue n (dumps v ++ rest) = some (v, rest) := by
  obtain ⟨n, rfl⟩ : ∃ m, n = m + 1 := by
    obtain ⟨c, cs, hdumps, -⟩ := dumps_head v
    rw [hdumps, List.length_cons] at hn
    exact ⟨n - 1, by omega⟩
  cases v with
  | word w => exact readValue_dump (.word w) hn hrest
  | num num => exact readValue_dump (.num num) hn hrest
  | str s => exact readValue_dump (.str s) hn hrest
  | arr items =>
      cases items with
      | nil => rfl
      | cons v items =>
          rw [dumps, List.cons_append, List.length_cons, List.length_append] at hn
          obtain ⟨c, cs, hdumps, hstarts⟩ := dumps_head v
          obtain ⟨d, ds, hitems, hspace, hnum⟩ := dumpsItems_head items
          have hskip : skipSpace (dumps v ++ dumpsItems items ++ rest) =
              c :: (cs ++ dumpsItems items ++ rest) := by
            rw [hdumps, List.cons_append, List.cons_append, skipSpace_cons hstarts.space]
          have hfollows : Follows (dumpsItems items ++ rest) := by
            rw [hitems]
            exact follows_cons hnum
          rw [dumps, List.cons_append, List.cons_append, readValue_arr n hskip hstarts.close,
            ← List.cons_append, ← List.cons_append, ← hdumps, List.append_assoc,
            readValue_dumps v (by omega) hfollows]
          simp only [Option.bind_eq_bind, Option.bind_some]
          rw [hitems, List.cons_append, skipSpace_cons hspace, ← List.cons_append, ← hitems,
            readItems_dumps items (by omega)]
          rfl
  | obj fields =>
      cases hcase : fields with
      | nil => rfl
      | cons key v fields' =>
          have hfields : dumpsFields fields =
              ',' :: ' ' :: (quote key ++ ':' :: ' ' :: dumps v ++ dumpsFields fields') := by
            rw [hcase, dumpsFields]
            rfl
          have htext : dumps (.obj fields) =
              '{' :: (quote key ++ ':' :: ' ' :: dumps v ++ dumpsFields fields') := by
            rw [hcase, dumps]
            rfl
          have hread : readField n ((quote key ++ ':' :: ' ' :: dumps v ++ dumpsFields fields') ++
              rest) = some (fields, rest) := by
            apply readField_dumps fields _ hfields rest
            rw [htext, List.length_cons] at hn
            exact Nat.le_of_succ_le_succ hn
          have hquote : quote key = '"' :: (quote key).tail := rfl
          rw [← hcase, htext, List.cons_append]
          rw [hquote, List.cons_append, List.cons_append, List.cons_append] at hread ⊢
          rw [readValue_obj n (skipSpace_cons (by decide) _) (by decide), hread]
          rfl

theorem readItems_dumps (items : Items) {n : Nat} (hn : (dumpsItems items).length ≤ n)
    (rest : List Char) : readItems n (dumpsItems items ++ rest) = some (items, rest) := by
  obtain ⟨n, rfl⟩ : ∃ m, n = m + 1 := by
    obtain ⟨c, cs, hitems, -⟩ := dumpsItems_head items
    rw [hitems, List.length_cons] at hn
    exact ⟨n - 1, by omega⟩
  cases items with
  | nil => rfl
  | cons v items =>
      simp only [dumpsItems, List.cons_append, List.length_cons, List.length_append] at hn
      obtain ⟨d, ds, hitems, hspace, hnum⟩ := dumpsItems_head items
      have hfollows : Follows (dumpsItems items ++ rest) := by
        rw [hitems]
        exact follows_cons hnum
      have hskip : skipSpace (' ' :: dumps v ++ dumpsItems items ++ rest) =
          dumps v ++ (dumpsItems items ++ rest) := by
        rw [List.cons_append, List.cons_append, skipSpace_blank, List.append_assoc, skipSpace_dumps]
      change readItems (n + 1) (',' :: (' ' :: dumps v ++ dumpsItems items ++ rest)) = _
      rw [readItems, hskip, readValue_dumps v (by omega) hfollows]
      simp only [Option.bind_eq_bind, Option.bind_some]
      rw [hitems, List.cons_append, skipSpace_cons hspace, ← List.cons_append, ← hitems,
        readItems_dumps items (by omega)]
      rfl

theorem readField_dumps (fields : Fields) {n : Nat} {cs : List Char} (hn : cs.length ≤ n)
    (hcs : dumpsFields fields = ',' :: ' ' :: cs) (rest : List Char) :
    readField n (cs ++ rest) = some (fields, rest) := by
  cases fields with
  | nil => exact absurd (List.cons.inj hcs).1 (by decide)
  | cons key v fields =>
      have hkey : dumpsFields (.cons key v fields) =
          ',' :: ' ' :: (quote key ++ ':' :: ' ' :: dumps v ++ dumpsFields fields) := by
        rw [dumpsFields]
        rfl
      obtain rfl := (List.cons.inj (List.cons.inj (hcs.symm.trans hkey)).2).2
      simp only [List.length_cons, List.length_append, quote, List.length_nil] at hn
      obtain ⟨n, rfl⟩ : ∃ m, n = m + 1 := ⟨n - 1, by omega⟩
      have hquote : quote key = '"' :: (quote key).tail := rfl
      have htext : readText (n + 1) ((quote key).tail ++ (':' :: ' ' :: (dumps v ++
          (dumpsFields fields ++ rest)))) = some (key, ':' :: ' ' :: (dumps v ++
            (dumpsFields fields ++ rest))) := by
        apply readText_of_quote
        simp only [quote, List.length_cons, List.length_append, List.length_nil]
        omega
      obtain ⟨d, ds, hfields, hspace, hnum⟩ := dumpsFields_head fields
      have hfollows : Follows (dumpsFields fields ++ rest) := by
        rw [hfields]
        exact follows_cons hnum
      have hvalue : readValue n (skipSpace (' ' :: (dumps v ++ (dumpsFields fields ++ rest)))) =
          some (v, dumpsFields fields ++ rest) := by
        rw [skipSpace_blank, skipSpace_dumps]
        exact readValue_dumps v (by omega) hfollows
      have hcolon : ∀ cs, skipSpace (':' :: cs) = ':' :: cs :=
        fun cs => skipSpace_cons (by decide) cs
      rw [hquote]
      simp only [List.cons_append, List.append_assoc]
      rw [readField, htext]
      simp only [hcolon, hvalue, Option.bind_eq_bind, Option.bind_some]
      rw [hfields, List.cons_append, skipSpace_cons hspace]
      cases fields with
      | nil =>
          obtain ⟨rfl, rfl⟩ := List.cons.inj hfields
          rfl
      | cons key' v' fields' =>
          have hnext : dumpsFields (.cons key' v' fields') =
              ',' :: ' ' :: (quote key' ++ ':' :: ' ' :: dumps v' ++ dumpsFields fields') := by
            rw [dumpsFields]
            rfl
          obtain ⟨rfl, rfl⟩ := List.cons.inj (hnext.symm.trans hfields)
          have hread : readField n ((quote key' ++ ':' :: ' ' :: dumps v' ++
              dumpsFields fields') ++ rest) = some (.cons key' v' fields', rest) := by
            apply readField_dumps (.cons key' v' fields') _ hnext rest
            rw [hnext] at hn
            simp only [List.length_cons] at hn
            omega
          have hskip : skipSpace (' ' :: (quote key' ++ ':' :: ' ' :: dumps v' ++
              dumpsFields fields') ++ rest) =
              (quote key' ++ ':' :: ' ' :: dumps v' ++ dumpsFields fields') ++ rest := by
            rw [List.cons_append, skipSpace_blank]
            exact skipSpace_cons (by decide) _
          simp only [hskip, hread, Option.bind_some]

end

/-- **A value written with blanks is loaded back.** -/
theorem loads_dumps (v : Value) : loads (dumps v) = some v := by
  have hskip : skipSpace (dumps v) = dumps v := by
    simpa using skipSpace_dumps v []
  have hread : readValue ((dumps v).length + 1) (dumps v) = some (v, []) := by
    simpa using readValue_dumps v (Nat.le_succ _) follows_nil
  unfold loads
  rw [hskip, hread]
  rfl

end JsonText
