import Graphed.Core.Node
import Graphed.Library.Json

/-!
# Evaluator keys

What picks an External's evaluator is one text: its payload's hash, a bar, and its parameters as
JSON. The hash of an opaque callable spells the name it was recorded under, so the text holds a name
twice, raw and quoted. It is read unambiguously whatever the name holds.
-/

namespace Graphed

open JsonText

/-! ### Parameters as JSON -/

/-- A parameter as json writes it; what a float's text is, Python says. -/
def paramJson (floatJson : UInt64 → Value) : ParamValue → Value
  | .int a => .num (Number.ofInt a.toInt)
  | .float bits => floatJson bits
  | .bool a => .word (if a then .true else .false)
  | .str s => .str s.toList

def paramFields (floatJson : UInt64 → Value) : List (String × ParamValue) → Fields
  | [] => .nil
  | e :: entries => .cons e.1.toList (paramJson floatJson e.2) (paramFields floatJson entries)

/-- What picks an External's evaluator: its payload's hash plus its parameters. -/
def evaluatorKey (floatJson : UInt64 → Value) (contentHash : String) (params : ParamMap) : String :=
  contentHash ++ "|" ++ String.ofList (dump (.obj (paramFields floatJson params.entries)))

/-- What a map or an apply is recorded under: the callable's name, and a declared type. -/
def mapParams (name : String) (declaredType : Option String) : ParamMap :=
  .new (("fn", .str name) ::
    match declaredType with
    | none => []
    | some t => [("output_type", .str t)])

/-- The payload hash of an opaque callable. -/
def opaqueHash (name : String) : String := "unhashed-opaque:" ++ name

/-- The evaluator key of a map or an apply. -/
def mapKey (floatJson : UInt64 → Value) (name : String) (declaredType : Option String) : String :=
  evaluatorKey floatJson (opaqueHash name) (mapParams name declaredType)

theorem mapParams_entries (name : String) (declaredType : Option String) :
    (mapParams name declaredType).entries = ("fn", .str name) ::
      match declaredType with
      | none => []
      | some t => [("output_type", .str t)] := by
  unfold mapParams ParamMap.new
  cases declaredType with
  | none => rfl
  | some t =>
      have hle : ParamMap.keyLE ("fn", .str name) ("output_type", .str t) := by
        change "fn" ≤ "output_type"
        decide
      exact List.insertionSort_cons_of_forall_rel ParamMap.keyLE (by simpa using hle)

theorem mapParams_inj {name name' : String} {t t' : Option String}
    (h : mapParams name t = mapParams name' t') : name = name' ∧ t = t' := by
  have hentries := congrArg ParamMap.entries h
  rw [mapParams_entries, mapParams_entries] at hentries
  obtain ⟨hhead, hrest⟩ := List.cons.inj hentries
  refine ⟨ParamValue.str.inj (Prod.mk.inj hhead).2, ?_⟩
  cases t with
  | none => cases t' with
    | none => rfl
    | some u => cases hrest
  | some t => cases t' with
    | none => cases hrest
    | some u => rw [ParamValue.str.inj (Prod.mk.inj (List.cons.inj hrest).1).2]

/-! ### A quoted text holds no key -/

/-- A brace before a quote before some character, as an object's text begins. -/
def Opens (d : Char) (r : List Char) : List Char := '{' :: '"' :: d :: r

theorem escape_of_brace {c : Char} (h : '{' ∈ escape c) : escape c = ['{'] := by
  have hhex : ∀ n < 16, hexDigit n ≠ '{' := by decide
  have hunicode : ∀ {n : Nat}, n < 65536 → '{' ∉ unicode n := by
    intro n hn hmem
    simp only [unicode, List.mem_cons, List.not_mem_nil, or_false] at hmem
    rcases hmem with h | h | h | h | h | h
    · cases h
    · cases h
    · exact hhex _ (by omega) h.symm
    · exact hhex _ (by omega) h.symm
    · exact hhex _ (by omega) h.symm
    · exact hhex _ (by omega) h.symm
  have hrange := toNat_range c
  unfold escape at h ⊢
  split_ifs at h ⊢ with h₁ h₂ h₃ h₄ h₅ h₆ h₇ h₈ h₉
  any_goals simp at h
  · rw [← h]
  · exact absurd h (hunicode h₉)
  · rcases h with h | h
    · exact absurd h (hunicode (by omega))
    · exact absurd h (hunicode (by omega))

theorem escape_head (c : Char) : ∃ a cs, escape c = a :: cs ∧ a ≠ '"' := by
  by_cases hquote : c = '"'
  · exact ⟨'\\', ['"'], by rw [hquote]; rfl, by decide⟩
  · unfold escape
    rw [if_neg hquote]
    split_ifs
    case pos => exact ⟨'\\', _, rfl, by decide⟩
    all_goals first
      | exact ⟨'\\', _, rfl, by decide⟩
      | exact ⟨c, [], rfl, hquote⟩

/-- What opens after a text without braces opens in the rest. -/
theorem opens_of_append {d : Char} {front l r rest : List Char} (hfront : '{' ∉ front)
    (h : front ++ rest = l ++ Opens d r) : ∃ l', rest = l' ++ Opens d r := by
  rcases List.append_eq_append_iff.mp h with ⟨l', -, hrest⟩ | ⟨m, hm, hopens⟩
  · exact ⟨l', hrest⟩
  · cases m with
    | nil => exact ⟨[], hopens.symm⟩
    | cons a m =>
        have ha : a = '{' := (List.cons.inj hopens).1.symm
        subst ha
        exact absurd (by rw [hm]; simp) hfront

/-- No object opens inside a quoted text, or where it ends before another character. -/
theorem opens_after_quote {c d : Char} (hc : c ≠ d) {s l r rest : List Char}
    (h : s.flatMap escape ++ '"' :: c :: rest = l ++ Opens d r) :
    ∃ l', c :: rest = l' ++ Opens d r := by
  induction s generalizing l with
  | nil =>
      have hclose : ['"'] ++ c :: rest = l ++ Opens d r := h
      exact opens_of_append (by decide) hclose
  | cons a s ih =>
      rw [List.flatMap_cons, List.append_assoc] at h
      by_cases hbrace : '{' ∈ escape a
      · rw [escape_of_brace hbrace] at h
        cases l with
        | cons b l => exact ih (List.cons.inj h).2
        | nil =>
            -- the text goes on with a quote only where it ends
            have htail : s.flatMap escape ++ '"' :: c :: rest = '"' :: d :: r :=
              (List.cons.inj h).2
            cases s with
            | nil => exact absurd (List.cons.inj (List.cons.inj htail).2).1 hc
            | cons b s =>
                obtain ⟨e, es, hescape, hne⟩ := escape_head b
                rw [List.flatMap_cons, hescape] at htail
                exact absurd (List.cons.inj htail).1 hne
      · obtain ⟨l', hrest⟩ := opens_of_append hbrace h
        exact ih hrest

/-! ### The key of a map -/

/-- A map's key, the name and the parameters' text apart. -/
def mapText (name : List Char) (declaredType : Option String) : List Char :=
  match declaredType with
  | none => '{' :: quote ['f', 'n'] ++ ':' :: quote name ++ ['}']
  | some t => '{' :: quote ['f', 'n'] ++ ':' :: quote name ++
      (',' :: quote "output_type".toList ++ ':' :: quote t.toList ++ ['}'])

theorem toList_mapKey (floatJson : UInt64 → Value) (name : String)
    (declaredType : Option String) :
    (mapKey floatJson name declaredType).toList =
      "unhashed-opaque:".toList ++ (name.toList ++ '|' :: mapText name.toList declaredType) := by
  unfold mapKey evaluatorKey opaqueHash
  rw [mapParams_entries]
  cases declaredType with
  | none => simp [paramFields, paramJson, dump, dumpFields, mapText]
  | some t => simp [paramFields, paramJson, dump, dumpFields, mapText]

/-- After a quoted text that ends the parameters no object opens. -/
theorem not_opens_last {front s l r : List Char} (hfront : '{' ∉ front) :
    front ++ (s.flatMap escape ++ ['"', '}']) ≠ l ++ Opens 'f' r := by
  intro h
  obtain ⟨l₁, h₁⟩ := opens_of_append hfront h
  obtain ⟨l₂, h₂⟩ := opens_after_quote (by decide) h₁
  have hlength := congrArg List.length h₂
  simp only [Opens, List.length_append, List.length_cons, List.length_nil] at hlength
  omega

/-- In a map's parameters no object opens but the parameters themselves. -/
theorem mapText_opens {name l r : List Char} {declaredType : Option String}
    (h : mapText name declaredType = l ++ Opens 'f' r) : l = [] := by
  cases l with
  | nil => rfl
  | cons a l =>
      have hname : '{' ∉ ['"', 'f', 'n', '"', ':', '"'] := by decide
      cases declaredType with
      | none =>
          have hbody : ['"', 'f', 'n', '"', ':', '"'] ++ (name.flatMap escape ++ ['"', '}']) =
              l ++ Opens 'f' r := by
            have hmap := (List.cons.inj h).2
            simpa [quote, escape] using hmap
          exact absurd hbody (not_opens_last hname)
      | some t =>
          have hbody : ['"', 'f', 'n', '"', ':', '"'] ++ (name.flatMap escape ++ '"' :: ',' ::
              (quote "output_type".toList ++ ':' :: quote t.toList ++ ['}'])) =
              l ++ Opens 'f' r := by
            have hmap := (List.cons.inj h).2
            simpa [quote, escape] using hmap
          obtain ⟨l₁, h₁⟩ := opens_of_append hname hbody
          obtain ⟨l₂, h₂⟩ := opens_after_quote (by decide) h₁
          have htype : '{' ∉ ',' :: (quote "output_type".toList ++ [':', '"']) := by decide
          refine absurd ?_ (not_opens_last (s := t.toList) (l := l₂) (r := r) htype)
          rw [← h₂]
          simp [quote]

/-- A map's parameters begin as an object does. -/
theorem mapText_eq_opens (name : List Char) (declaredType : Option String) :
    ∃ r, mapText name declaredType = Opens 'f' r := by
  cases declaredType with
  | none => exact ⟨_, rfl⟩
  | some t => exact ⟨_, rfl⟩

theorem mapText_inj {name name' : List Char} {t t' : Option String}
    (h : mapText name t = mapText name' t') : name = name' ∧ t = t' := by
  have hdump : ∀ (n : List Char) (d : Option String), mapText n d =
      dump (.obj (.cons "fn".toList (.str n)
        (match d with
          | none => .nil
          | some t => .cons "output_type".toList (.str t.toList) .nil))) := by
    intro n d
    cases d with
    | none => simp [mapText, dump, dumpFields]
    | some t => simp [mapText, dump, dumpFields]
  rw [hdump, hdump] at h
  have hread := congrArg loads h
  rw [loads_dump, loads_dump] at hread
  simp only [Option.some.injEq, Value.obj.injEq, Fields.cons.injEq, Value.str.injEq,
    true_and] at hread
  refine ⟨hread.1, ?_⟩
  cases t with
  | none => cases t' with
    | none => rfl
    | some u => simp at hread
  | some t => cases t' with
    | none => simp at hread
    | some u =>
        have htext : t.toList = u.toList := by simpa using hread.2
        rw [String.toList_inj.mp htext]

/-- A longer name would leave an object to open inside the shorter one's parameters. -/
theorem eq_of_names {n n' m : List Char} {t t' : Option String}
    (h : '|' :: mapText n t = m ++ '|' :: mapText n' t') : m = [] := by
  cases m with
  | nil => rfl
  | cons a m =>
      exfalso
      obtain ⟨r, hr⟩ := mapText_eq_opens n' t'
      have hinner : mapText n t = (m ++ ['|']) ++ Opens 'f' r := by
        rw [(List.cons.inj h).2, hr]
        simp
      simpa using mapText_opens hinner

/-- The key of a map tells its name and its declared type. -/
theorem mapKey_inj {floatJson : UInt64 → Value} {name name' : String} {t t' : Option String}
    (h : mapKey floatJson name t = mapKey floatJson name' t') : name = name' ∧ t = t' := by
  have htext := congrArg String.toList h
  rw [toList_mapKey, toList_mapKey] at htext
  have hsame := List.append_cancel_left htext
  have hname : name.toList = name'.toList := by
    rcases List.append_eq_append_iff.mp hsame with ⟨m, hm, hrest⟩ | ⟨m, hm, hrest⟩
    · rw [hm, eq_of_names hrest, List.append_nil]
    · rw [hm, eq_of_names hrest, List.append_nil]
  rw [hname] at hsame
  have hparams := List.append_cancel_left hsame
  exact ⟨String.toList_inj.mp hname, (mapText_inj (List.cons.inj hparams).2).2⟩

end Graphed
