import Graphed.Core.Node

/-!
# Tokens determine operators

The optimizer compares operators by their tokens alone, so two nodes with one token have to apply
the same operator. Escaped fields hold no separator, which makes each level of a token readable: the
fields between bars, the entries between semicolons, and a key and its value around the equals sign.
-/

namespace Graphed

/-- The code `escapeToken` writes for one character. -/
def escapeChar (c : Char) : List Char :=
  if c = '%' then ['%', '2', '5'] else if c = ';' then ['%', '3', 'B']
  else if c = '=' then ['%', '3', 'D'] else if c = '|' then ['%', '7', 'C'] else [c]

theorem toList_escapeToken (s : String) : (escapeToken s).toList = s.toList.flatMap escapeChar := by
  simp only [escapeToken, Text.replaceChar, String.toList_ofList, List.flatMap_assoc]
  refine List.flatMap_congr fun c _ => ?_
  unfold escapeChar
  split_ifs <;> simp_all

theorem prefixFree_escapeChar : Text.PrefixFree escapeChar where
  ne_nil c := by unfold escapeChar; split_ifs <;> simp
  eq_of_isPrefix a b h := by
    unfold escapeChar at h
    split_ifs at h <;> simp_all [List.cons_prefix_cons]

theorem escapeToken_injective : Function.Injective escapeToken := by
  intro s t h
  have hlist := congrArg String.toList h
  rw [toList_escapeToken, toList_escapeToken] at hlist
  exact String.toList_inj.mp (prefixFree_escapeChar.flatMap_injective hlist)

/-- The characters that separate the parts of a token. -/
def IsSeparator (c : Char) : Prop := c = ';' ∨ c = '=' ∨ c = '|'

/-- An escaped text holds no separator. -/
theorem notMem_escapeToken {c : Char} (hc : IsSeparator c) (s : String) :
    c ∉ (escapeToken s).toList := by
  rw [toList_escapeToken, List.mem_flatMap]
  rintro ⟨d, -, hd⟩
  unfold escapeChar at hd
  rcases hc with rfl | rfl | rfl <;> split_ifs at hd <;> simp_all [eq_comm]

/-! ### Values and parameter maps -/

theorem notMem_repr_nat {c : Char} (hc : c.isDigit = false) (n : Nat) : c ∉ n.repr.toList := by
  rw [Nat.toList_repr]
  intro hmem
  rw [Nat.isDigit_of_mem_toDigits (by decide) (by decide) hmem] at hc
  exact absurd hc (by decide)

theorem notMem_repr_int {c : Char} (hc : IsSeparator c) (a : Int) : c ∉ a.repr.toList := by
  have hdigit : c.isDigit = false := by rcases hc with rfl | rfl | rfl <;> decide
  have hminus : c ≠ '-' := by rcases hc with rfl | rfl | rfl <;> decide
  cases a with
  | ofNat n => exact notMem_repr_nat hdigit n
  | negSucc n =>
      simp only [Int.repr, String.toList_append, List.mem_append, not_or]
      exact ⟨by simpa using hminus, notMem_repr_nat hdigit _⟩

theorem notMem_hexDigits {c : Char} (hc : IsSeparator c) (k n : Nat) :
    c ∉ Text.hexDigits k n := by
  intro hmem
  obtain ⟨d, hd, hchar⟩ := Text.hexDigits_mem hmem
  have hne : ∀ d < 16, Nat.digitChar d ≠ ';' ∧ Nat.digitChar d ≠ '=' ∧ Nat.digitChar d ≠ '|' := by
    decide
  obtain ⟨hsemi, heq, hbar⟩ := hne d hd
  rcases hc with rfl | rfl | rfl
  · exact hsemi hchar.symm
  · exact heq hchar.symm
  · exact hbar hchar.symm

theorem ParamValue.notMem_token {c : Char} (hc : IsSeparator c) (v : ParamValue) :
    c ∉ v.token.toList := by
  cases v with
  | int a =>
      simp only [token, String.toList_append, List.mem_append, not_or]
      exact ⟨by rcases hc with rfl | rfl | rfl <;> decide, notMem_repr_int hc _⟩
  | float bits =>
      simp only [token, String.toList_append, String.toList_ofList, List.mem_append, not_or]
      exact ⟨by rcases hc with rfl | rfl | rfl <;> decide, notMem_hexDigits hc _ _⟩
  | bool a => rcases hc with rfl | rfl | rfl <;> cases a <;> decide
  | str a =>
      simp only [token, String.toList_append, List.mem_append, not_or]
      exact ⟨by rcases hc with rfl | rfl | rfl <;> decide, notMem_escapeToken hc a⟩

theorem repr_nat_inj {m n : Nat} (h : m.repr = n.repr) : m = n := by
  have hdigits := congrArg (fun s : String => Nat.ofDigitChars 10 s.toList 0) h
  simpa [Nat.toList_repr, Nat.ofDigitChars_ten_toDigits] using hdigits

theorem repr_int_inj {a b : Int} (h : a.repr = b.repr) : a = b := by
  have hminus : ∀ m n : Nat, m.repr ≠ "-" ++ n.repr := by
    intro m n hmn
    have hmem : '-' ∈ m.repr.toList := by rw [hmn, String.toList_append]; simp
    exact notMem_repr_nat (by decide) m hmem
  cases a with
  | ofNat m =>
      cases b with
      | ofNat n => rw [repr_nat_inj h]
      | negSucc n => exact absurd h (hminus m _)
  | negSucc m =>
      cases b with
      | ofNat n => exact absurd h.symm (hminus n _)
      | negSucc n =>
          have hlist := congrArg String.toList h
          simp only [Int.repr, String.toList_append, List.append_cancel_left_eq] at hlist
          have hsucc := repr_nat_inj (String.toList_inj.mp hlist)
          rw [Nat.succ.inj hsucc]

theorem toNat_lt_hex (bits : UInt64) : bits.toNat < 16 ^ 16 := by
  calc bits.toNat < 2 ^ 64 := bits.toNat_lt
    _ = 16 ^ 16 := by decide

/-- A value's token determines the value up to the NaN it spells. -/
theorem ParamValue.token_inj {a b : ParamValue} : a.token = b.token ↔ a.canon = b.canon := by
  refine ⟨fun h => ?_, fun h => by rw [← token_canon a, h, token_canon]⟩
  have hlist := congrArg String.toList h
  cases a <;> cases b <;> simp only [token, String.toList_append] at hlist
  case int.int a b =>
    have hrepr := repr_int_inj (String.toList_inj.mp (List.append_cancel_left hlist))
    rw [Int64.toInt_inj.mp hrepr]
  case float.float a b =>
    simp only [String.toList_ofList, List.append_cancel_left_eq] at hlist
    have hbits := Text.hexDigits_inj (toNat_lt_hex _) (toNat_lt_hex _) hlist
    simp only [canon, UInt64.toNat_inj.mp hbits]
  case bool.bool a b =>
    cases a <;> cases b <;> first | rfl | exact absurd h (by decide)
  case str.str a b =>
    rw [escapeToken_injective (String.toList_inj.mp (List.append_cancel_left hlist))]
  all_goals simp at hlist

namespace ParamMap

/-- One entry's text: the escaped key, an equals sign, the value's token. -/
def entryText (e : String × ParamValue) : List Char :=
  (escapeToken e.1).toList ++ '=' :: e.2.token.toList

theorem toList_token (p : ParamMap) :
    p.token.toList = [';'].intercalate (p.entries.map entryText) := by
  have hsep : ";".toList = [';'] := by decide
  have hmap : p.entries.map (String.toList ∘ fun e => escapeToken e.1 ++ "=" ++ e.2.token) =
      p.entries.map entryText :=
    List.map_congr_left fun e _ => by simp [entryText]
  rw [token, String.toList_intercalate, List.map_map, hsep, hmap]

theorem notMem_entryText (e : String × ParamValue) : ';' ∉ entryText e ∧ '|' ∉ entryText e := by
  simp only [entryText, List.mem_append, List.mem_cons, not_or]
  refine ⟨⟨notMem_escapeToken ?_ _, by decide, e.2.notMem_token ?_⟩,
    notMem_escapeToken ?_ _, by decide, e.2.notMem_token ?_⟩ <;> simp [IsSeparator]

theorem notMem_token (p : ParamMap) : '|' ∉ p.token.toList := by
  rw [toList_token]
  intro hmem
  rcases Text.mem_intercalate hmem with hc | ⟨l, hl, hd⟩
  · exact absurd hc (by decide)
  · obtain ⟨e, -, rfl⟩ := List.mem_map.mp hl
    exact (notMem_entryText e).2 hd

theorem entryText_inj {a b : String × ParamValue} (h : entryText a = entryText b) :
    (a.1, a.2.canon) = (b.1, b.2.canon) := by
  obtain ⟨hkey, hvalue⟩ := Text.append_cons_inj (notMem_escapeToken (by simp [IsSeparator]) _)
    (notMem_escapeToken (by simp [IsSeparator]) _) h
  rw [escapeToken_injective (String.toList_inj.mp hkey),
    ParamValue.token_inj.mp (String.toList_inj.mp hvalue)]

theorem token_eq_empty_iff (p : ParamMap) : p.token.toList = [] ↔ p.isEmpty = true := by
  rw [toList_token, isEmpty, List.isEmpty_iff]
  refine ⟨fun h => ?_, fun h => by simp [h]⟩
  have hmap := Text.intercalate_eq_nil (by
    intro l hl
    obtain ⟨e, -, rfl⟩ := List.mem_map.mp hl
    simp [entryText]) h
  simpa using hmap

/-- A map's token determines the map up to the NaNs it spells. -/
theorem token_inj {p q : ParamMap} : p.token = q.token ↔ p.canon = q.canon := by
  refine ⟨fun h => ?_, fun h => by rw [← token_canon p, h, token_canon]⟩
  have hempty : p.isEmpty = true ↔ q.isEmpty = true := by
    rw [← token_eq_empty_iff, ← token_eq_empty_iff, h]
  simp only [isEmpty, List.isEmpty_iff] at hempty
  have hnotMem : ∀ r : ParamMap, ∀ l ∈ r.entries.map entryText, ';' ∉ l := by
    intro r l hl
    obtain ⟨e, -, rfl⟩ := List.mem_map.mp hl
    exact (notMem_entryText e).1
  ext1
  by_cases hp : p.entries = []
  · simp [canon, hp, hempty.mp hp]
  · have hlist := congrArg String.toList h
    rw [toList_token, toList_token] at hlist
    have htexts := Text.intercalate_inj (hnotMem p) (hnotMem q) (by simpa using hp)
      (by simpa using fun hq => hp (hempty.mpr hq)) hlist
    exact Text.map_eq_map_of_imp (fun _ _ => entryText_inj) htexts

end ParamMap

/-! ### Stage members -/

theorem notMem_stageRef {c : Char} (hc : IsSeparator c ∨ c = ',') (r : StageRef) :
    c ∉ r.token.toList := by
  have hdigit : c.isDigit = false := by rcases hc with (rfl | rfl | rfl) | rfl <;> decide
  cases r <;> simp only [StageRef.token, String.toList_append, List.mem_append, not_or] <;>
    exact ⟨by rcases hc with (rfl | rfl | rfl) | rfl <;> decide, notMem_repr_nat hdigit _⟩

theorem stageRef_token_injective : Function.Injective StageRef.token := by
  intro a b h
  have hlist := congrArg String.toList h
  cases a <;> cases b <;> simp only [StageRef.token, String.toList_append] at hlist
  case input.input i j =>
    rw [repr_nat_inj (String.toList_inj.mp (List.append_cancel_left hlist))]
  case member.member i j =>
    rw [repr_nat_inj (String.toList_inj.mp (List.append_cancel_left hlist))]
  all_goals simp at hlist

namespace StageOp

def refsText (refs : List StageRef) : List Char :=
  [','].intercalate (refs.map fun r => r.token.toList)

/-- One member's text: the escaped token, an equals sign, its references. -/
def memberText (m : StageOp) : List Char := (escapeToken m.token).toList ++ '=' :: refsText m.inputs

theorem notMem_refsText {c : Char} (hc : IsSeparator c) (refs : List StageRef) :
    c ∉ refsText refs := by
  intro hmem
  rcases Text.mem_intercalate hmem with hcomma | ⟨l, hl, hd⟩
  · subst hcomma
    rcases hc with hc | hc | hc <;> exact absurd hc (by decide)
  · obtain ⟨r, -, rfl⟩ := List.mem_map.mp hl
    exact notMem_stageRef (Or.inl hc) r hd

theorem refsText_injective : Function.Injective refsText := by
  intro xs ys h
  have hempty : ∀ zs : List StageRef, refsText zs = [] → zs = [] := by
    intro zs hzs
    have hmap := Text.intercalate_eq_nil (by
      intro l hl
      obtain ⟨r, -, rfl⟩ := List.mem_map.mp hl
      cases r <;> simp [StageRef.token]) hzs
    simpa using hmap
  have hnotMem : ∀ zs : List StageRef, ∀ l ∈ zs.map (fun r => r.token.toList), ',' ∉ l := by
    intro zs l hl
    obtain ⟨r, -, rfl⟩ := List.mem_map.mp hl
    exact notMem_stageRef (Or.inr rfl) r
  by_cases hxs : xs = []
  · rw [hxs, hempty ys (by rw [← h, hxs]; rfl)]
  · have hys : ys ≠ [] := fun hys => hxs (hempty xs (by rw [h, hys]; rfl))
    have htexts := Text.intercalate_inj (hnotMem xs) (hnotMem ys) (by simpa using hxs)
      (by simpa using hys) h
    exact List.map_injective_iff.mpr
      (fun a b hab => stageRef_token_injective (String.toList_inj.mp hab)) htexts

theorem memberText_injective : Function.Injective memberText := by
  intro a b h
  obtain ⟨htoken, hrefs⟩ := Text.append_cons_inj (notMem_escapeToken (by simp [IsSeparator]) _)
    (notMem_escapeToken (by simp [IsSeparator]) _) h
  cases a; cases b
  rw [StageOp.mk.injEq]
  exact ⟨escapeToken_injective (String.toList_inj.mp htoken), refsText_injective hrefs⟩

theorem notMem_memberText (m : StageOp) : ';' ∉ memberText m ∧ '|' ∉ memberText m := by
  simp only [memberText, List.mem_append, List.mem_cons, not_or]
  refine ⟨⟨notMem_escapeToken ?_ _, by decide, notMem_refsText ?_ _⟩,
    notMem_escapeToken ?_ _, by decide, notMem_refsText ?_ _⟩ <;> simp [IsSeparator]

def membersText (ms : List StageOp) : List Char := [';'].intercalate (ms.map memberText)

theorem membersText_injective : Function.Injective membersText := by
  intro xs ys h
  have hempty : ∀ zs : List StageOp, membersText zs = [] → zs = [] := by
    intro zs hzs
    have hmap := Text.intercalate_eq_nil (by
      intro l hl
      obtain ⟨m, -, rfl⟩ := List.mem_map.mp hl
      simp [memberText]) hzs
    simpa using hmap
  have hnotMem : ∀ zs : List StageOp, ∀ l ∈ zs.map memberText, ';' ∉ l := by
    intro zs l hl
    obtain ⟨m, -, rfl⟩ := List.mem_map.mp hl
    exact (notMem_memberText m).1
  by_cases hxs : xs = []
  · rw [hxs, hempty ys (by rw [← h, hxs]; rfl)]
  · have hys : ys ≠ [] := fun hys => hxs (hempty xs (by rw [h, hys]; rfl))
    exact List.map_injective_iff.mpr memberText_injective
      (Text.intercalate_inj (hnotMem xs) (hnotMem ys) (by simpa using hxs) (by simpa using hys) h)

theorem notMem_membersText (ms : List StageOp) : '|' ∉ membersText ms := by
  intro hmem
  rcases Text.mem_intercalate hmem with hc | ⟨l, hl, hd⟩
  · exact absurd hc (by decide)
  · obtain ⟨m, -, rfl⟩ := List.mem_map.mp hl
    exact (notMem_memberText m).2 hd

end StageOp

/-! ### Keys -/

/-- The last field of a token, present when there are parameters. -/
def paramsPart (p : ParamMap) : List (List Char) := if p.isEmpty then [] else [p.token.toList]

theorem paramsPart_inj {p q : ParamMap} (h : paramsPart p = paramsPart q) : p.canon = q.canon := by
  unfold paramsPart at h
  split_ifs at h with hp hq
  · have hp' := List.isEmpty_iff.mp hp
    have hq' := List.isEmpty_iff.mp hq
    ext1
    simp [ParamMap.canon, hp', hq']
  · exact ParamMap.token_inj.mp (String.toList_inj.mp (List.cons.inj h).1)

def refPart : Option String → List Char
  | none => ['-']
  | some r => '+' :: (escapeToken r).toList

theorem refPart_injective : Function.Injective refPart := by
  intro a b h
  cases a <;> cases b <;> simp only [refPart, List.cons.injEq] at h
  case none.none => rfl
  case some.some a b => rw [escapeToken_injective (String.toList_inj.mp h.2)]
  all_goals exact absurd h.1 (by decide)

namespace NodeKey

/-- The fields of a token, which bars separate. -/
def tokenParts : NodeKey → List (List Char)
  | source name params => "src".toList :: (escapeToken name).toList :: paramsPart params
  | op name params _ => "op".toList :: (escapeToken name).toList :: paramsPart params
  | reduction name params _ => "red".toList :: (escapeToken name).toList :: paramsPart params
  | external d params _ =>
      "ext".toList :: (escapeToken d.kind).toList :: (escapeToken d.contentHash).toList ::
        (escapeToken d.framework).toList :: (escapeToken d.version).toList ::
        (escapeToken d.ioSchema).toList :: refPart d.preprocessingRef :: paramsPart params
  | stage _ members => ["stage".toList, StageOp.membersText members]
  | exchange scheme _ => "exch".toList :: paramsPart scheme
  | join scheme _ => "join".toList :: paramsPart scheme

theorem toList_withParams {pre : String} (parts : List (List Char)) (hparts : parts ≠ [])
    (hpre : pre.toList = ['|'].intercalate parts) (p : ParamMap) :
    (withParams pre p).toList = ['|'].intercalate (parts ++ paramsPart p) := by
  unfold withParams paramsPart
  split_ifs with hp
  · simpa using hpre
  · rw [Text.intercalate_append_singleton hparts, String.toList_append, String.toList_append, hpre]
    simp

theorem toList_membersToken (members : List StageOp) :
    (";".intercalate (members.map fun m =>
        escapeToken m.token ++ "=" ++ ",".intercalate (m.inputs.map StageRef.token))).toList =
      StageOp.membersText members := by
  have hsep : ";".toList = [';'] := by decide
  have hcomma : ",".toList = [','] := by decide
  rw [String.toList_intercalate, List.map_map, hsep, StageOp.membersText]
  refine congrArg _ (List.map_congr_left fun m _ => ?_)
  simp [StageOp.memberText, StageOp.refsText, String.toList_intercalate, Function.comp_def]

/-- A token is its fields joined by bars. -/
theorem toList_token (key : NodeKey) : key.token.toList = ['|'].intercalate key.tokenParts := by
  cases key with
  | source name params =>
      exact toList_withParams ["src".toList, (escapeToken name).toList] (by simp)
        (by simp [List.intercalate_cons_cons]) params
  | op name params ins =>
      exact toList_withParams ["op".toList, (escapeToken name).toList] (by simp)
        (by simp [List.intercalate_cons_cons]) params
  | reduction name params ins =>
      exact toList_withParams ["red".toList, (escapeToken name).toList] (by simp)
        (by simp [List.intercalate_cons_cons]) params
  | external d params ins =>
      refine toList_withParams ["ext".toList, (escapeToken d.kind).toList,
        (escapeToken d.contentHash).toList, (escapeToken d.framework).toList,
        (escapeToken d.version).toList, (escapeToken d.ioSchema).toList,
        refPart d.preprocessingRef] (by simp) ?_ params
      cases d.preprocessingRef <;> simp [List.intercalate_cons_cons, refPart]
  | stage ins members =>
      simp only [token, String.toList_append, toList_membersToken, tokenParts,
        List.intercalate_cons_cons, List.intercalate_singleton]
      simp
  | exchange scheme ins =>
      exact toList_withParams ["exch".toList] (by simp) (by simp) scheme
  | join scheme ins =>
      exact toList_withParams ["join".toList] (by simp) (by simp) scheme

theorem notMem_paramsPart (p : ParamMap) : ∀ l ∈ paramsPart p, '|' ∉ l := by
  intro l hl
  unfold paramsPart at hl
  split_ifs at hl
  · simp at hl
  · rw [List.mem_singleton.mp hl]
    exact p.notMem_token

theorem notMem_tokenParts (key : NodeKey) : ∀ l ∈ key.tokenParts, '|' ∉ l := by
  have hesc : ∀ s : String, '|' ∉ (escapeToken s).toList :=
    notMem_escapeToken (by simp [IsSeparator])
  have href : ∀ r : Option String, '|' ∉ refPart r := by
    intro r
    cases r with
    | none => simp [refPart]
    | some r => simpa [refPart] using hesc r
  cases key <;> simp [tokenParts, hesc, href, StageOp.notMem_membersText] <;>
    exact notMem_paramsPart _

theorem tokenParts_inj {a b : NodeKey} (h : a.tokenParts = b.tokenParts) :
    a.operator = b.operator := by
  cases a <;> cases b <;> simp only [tokenParts, List.cons.injEq] at h
  case source.source | op.op | reduction.reduction =>
    simp only [operator, canon, withInputs, escapeToken_injective (String.toList_inj.mp h.2.1),
      paramsPart_inj h.2.2]
  case external.external d _ _ d' _ _ =>
    obtain ⟨-, hkind, hhash, hframework, hversion, hschema, href, hparams⟩ := h
    have hd : d = d' := by
      cases d; cases d'
      simp only [PayloadDescriptor.mk.injEq]
      exact ⟨escapeToken_injective (String.toList_inj.mp hkind),
        escapeToken_injective (String.toList_inj.mp hhash),
        escapeToken_injective (String.toList_inj.mp hframework),
        escapeToken_injective (String.toList_inj.mp hversion),
        escapeToken_injective (String.toList_inj.mp hschema), refPart_injective href⟩
    simp only [operator, canon, withInputs, hd, paramsPart_inj hparams]
  case stage.stage =>
    simp only [operator, canon, withInputs, StageOp.membersText_injective h.2.1]
  case exchange.exchange | join.join =>
    simp only [operator, canon, withInputs, paramsPart_inj h.2]
  all_goals exact absurd h.1 (by decide)

/-- **Tokens determine operators.** Two nodes with one token apply one operator. -/
theorem token_inj {a b : NodeKey} : a.token = b.token ↔ a.operator = b.operator := by
  constructor
  · intro h
    have hlist := congrArg String.toList h
    rw [toList_token, toList_token] at hlist
    have hne : ∀ key : NodeKey, key.tokenParts ≠ [] := by intro key; cases key <;> simp [tokenParts]
    exact tokenParts_inj (Text.intercalate_inj (notMem_tokenParts a) (notMem_tokenParts b) (hne a)
      (hne b) hlist)
  · intro h
    have htoken := congrArg token h
    simpa [operator] using htoken

end NodeKey

end Graphed
