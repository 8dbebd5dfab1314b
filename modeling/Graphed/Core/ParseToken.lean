import Graphed.Core.Token
import Graphed.Library.Splitting

/-!
# Reading tokens back

An operator token is split at its first two bars and its parameters at semicolons and equals signs,
and escaped texts are restored one code after another. Reading the token of an operator or a
reduction gives its name and its parameters, every NaN the canonical one.
-/

namespace Graphed

/-! ### Decoding -/

/-- Restore the escaped separators, `%` last. -/
def unescapeToken (s : List Char) : String :=
  String.ofList (Text.replaceText "%25".toList ['%'] (Text.replaceText "%3B".toList [';']
    (Text.replaceText "%3D".toList ['='] (Text.replaceText "%7C".toList ['|'] s))))

def decimalValue (c : Char) : Option Nat := if c.isDigit then some (c.toNat - 48) else none

/-- A hexadecimal digit of either case. -/
def hexValue (c : Char) : Option Nat :=
  if c.isDigit then some (c.toNat - 48)
  else if 'a' ≤ c ∧ c ≤ 'f' then some (c.toNat - 87)
  else if 'A' ≤ c ∧ c ≤ 'F' then some (c.toNat - 55) else none

/-- `parse::<i64>`: a sign or none, digits, and a number in range. -/
def parseInt64 : List Char → Option Int64
  | '-' :: ds => do
      let n ← Text.digitsNumber 10 decimalValue ds
      if n ≤ 2 ^ 63 then return Int64.ofInt (-n) else none
  | '+' :: ds => do
      let n ← Text.digitsNumber 10 decimalValue ds
      if n < 2 ^ 63 then return Int64.ofInt n else none
  | ds => do
      let n ← Text.digitsNumber 10 decimalValue ds
      if n < 2 ^ 63 then return Int64.ofInt n else none

/-- `u64::from_str_radix` to the base sixteen. -/
def parseHex64 (cs : List Char) : Option UInt64 := do
  let n ← Text.digitsNumber 16 hexValue (if cs.head? = some '+' then cs.tail else cs)
  if n < 2 ^ 64 then return UInt64.ofNat n else none

namespace ParamValue

/-- Decode one tagged value token. -/
def fromToken : List Char → Option ParamValue
  | 'i' :: rest => (parseInt64 rest).map int
  | 'f' :: rest => (parseHex64 rest).map float
  | 'b' :: rest =>
      if rest = "true".toList then some (bool true)
      else if rest = "false".toList then some (bool false) else none
  | 's' :: rest => some (str (unescapeToken rest))
  | _ => none

end ParamValue

namespace ParamMap

/-- Decode one entry. -/
def entryOfToken (part : List Char) : Option (String × ParamValue) := do
  let (key, value) := Text.splitFirst '=' part
  let value ← value
  return (unescapeToken key, ← ParamValue.fromToken value)

/-- Decode a map's token. -/
def fromToken (s : List Char) : Option ParamMap :=
  if s = [] then some (.new []) else ((s.splitOn ';').mapM entryOfToken).map new

end ParamMap

/-- The kind, the name and the parameters of an operator's or a reduction's token. -/
def parseOpToken (token : String) : Option (String × String × ParamMap) := do
  let (kind, rest) := Text.splitFirst '|' token.toList
  if kind ≠ "op".toList ∧ kind ≠ "red".toList then none
  let (name, params) := Text.splitFirst '|' (← rest)
  match params with
  | some params => return (String.ofList kind, unescapeToken name, ← ParamMap.fromToken params)
  | none => return (String.ofList kind, unescapeToken name, .new [])

/-! ### Escapes -/

/-- The codes that are left once these characters have been restored. -/
def escapeLeft (restored : List Char) (c : Char) : List Char :=
  if c ∈ restored then [c] else escapeChar c

theorem isCode_escapeLeft {restored : List Char} (h : '%' ∉ restored) (c : Char) :
    Text.IsCode '%' (escapeLeft restored c) := by
  unfold escapeLeft escapeChar
  split_ifs with hc
  · exact .plain c fun heq => h (heq ▸ hc)
  · exact .code '2' '5' (by decide) (by decide)
  · exact .code '3' 'B' (by decide) (by decide)
  · exact .code '3' 'D' (by decide) (by decide)
  · exact .code '7' 'C' (by decide) (by decide)
  · rename_i hpercent _ _ _
    exact .plain c hpercent

/-- Restoring one character leaves the codes of the others. -/
theorem replaceText_escapeLeft {restored : List Char} (h : '%' ∉ restored) {d a b : Char}
    (hd : escapeChar d = ['%', a, b]) (hunique : ∀ c, escapeChar c = ['%', a, b] → c = d)
    (hnew : d ∉ restored) (s : List Char) :
    Text.replaceText ['%', a, b] [d] (s.flatMap (escapeLeft restored)) =
      s.flatMap (escapeLeft (d :: restored)) := by
  refine Text.replaceText_flatMap (isCode_escapeLeft h) (fun c => ?_) s
  unfold escapeLeft
  by_cases hc : c ∈ restored
  · rw [if_pos hc, if_pos (List.mem_cons_of_mem d hc), if_neg (by simp)]
  · rw [if_neg hc]
    by_cases hcd : c = d
    · subst hcd
      rw [if_pos hd, if_pos List.mem_cons_self]
    · have hout : c ∉ d :: restored := by simp [hcd, hc]
      rw [if_neg fun hcode => hcd (hunique c hcode), if_neg hout]

theorem unescapeToken_escapeToken (s : String) : unescapeToken (escapeToken s).toList = s := by
  have hunique : ∀ {d a b : Char}, escapeChar d = ['%', a, b] →
      ∀ c, escapeChar c = ['%', a, b] → c = d := fun hd c hc =>
    prefixFree_escapeChar.eq_of_isPrefix c _ (hc.trans hd.symm ▸ List.prefix_rfl)
  have hbar : escapeChar '|' = ['%', '7', 'C'] := by decide
  have hequals : escapeChar '=' = ['%', '3', 'D'] := by decide
  have hsemi : escapeChar ';' = ['%', '3', 'B'] := by decide
  have hpercent : escapeChar '%' = ['%', '2', '5'] := by decide
  have hnone : escapeChar = escapeLeft [] := by
    funext c
    exact (if_neg (by simp)).symm
  have hall : escapeLeft ['%', ';', '=', '|'] = fun c => [c] := by
    funext c
    unfold escapeLeft escapeChar
    split_ifs <;> simp_all
  unfold unescapeToken
  change String.ofList (Text.replaceText ['%', '2', '5'] ['%']
    (Text.replaceText ['%', '3', 'B'] [';'] (Text.replaceText ['%', '3', 'D'] ['=']
      (Text.replaceText ['%', '7', 'C'] ['|'] _)))) = s
  rw [toList_escapeToken, hnone, replaceText_escapeLeft (by simp) hbar (hunique hbar) (by simp),
    replaceText_escapeLeft (by simp) hequals (hunique hequals) (by simp),
    replaceText_escapeLeft (by simp) hsemi (hunique hsemi) (by simp),
    replaceText_escapeLeft (by simp) hpercent (hunique hpercent) (by simp), hall,
    List.flatMap_singleton', String.ofList_toList]

/-! ### Numbers -/

theorem decimalValue_digitChar {d : Nat} (hd : d < 10) :
    decimalValue (Nat.digitChar d) = some d := by
  have hall : ∀ d < 10, decimalValue (Nat.digitChar d) = some d := by decide
  exact hall d hd

theorem hexValue_digitChar {d : Nat} (hd : d < 16) : hexValue (Nat.digitChar d) = some d := by
  have hall : ∀ d < 16, hexValue (Nat.digitChar d) = some d := by decide
  exact hall d hd

theorem digitsNumber_repr (n : Nat) :
    Text.digitsNumber 10 decimalValue n.repr.toList = some n := by
  rw [Nat.toList_repr]
  exact Text.digitsNumber_toDigits (by decide) (fun d hd => decimalValue_digitChar hd) n

theorem parseInt64_repr (a : Int64) : parseInt64 a.toInt.repr.toList = some a := by
  have hlt := a.toInt_lt
  have hle := a.le_toInt
  have hback := Int64.ofInt_toInt a
  cases hint : a.toInt with
  | ofNat n =>
      rw [hint] at hlt hback
      change parseInt64 n.repr.toList = _
      have hsign : ∀ {c : Char} {rest : List Char}, c.isDigit = false →
          n.repr.toList ≠ c :: rest := by
        intro c rest hc h
        apply notMem_repr_nat hc n
        rw [h]
        exact List.mem_cons_self
      unfold parseInt64
      split
      · rename_i ds hds
        exact absurd hds (hsign (by decide))
      · rename_i ds hds
        exact absurd hds (hsign (by decide))
      · rw [digitsNumber_repr]
        have hrange : n < 2 ^ 63 := by
          simp only [Int.ofNat_eq_natCast] at hlt
          omega
        simp only [Option.bind_eq_bind, Option.bind_some, if_pos hrange]
        exact congrArg some hback
  | negSucc n =>
      rw [hint] at hle hback
      have htext : (Int.negSucc n).repr.toList = '-' :: (n + 1).repr.toList := by
        simp [Int.repr]
      have hrange : n + 1 ≤ 2 ^ 63 := by omega
      rw [htext]
      simp only [parseInt64, digitsNumber_repr, Option.bind_eq_bind, Option.bind_some,
        if_pos hrange]
      exact congrArg some hback

theorem parseHex64_hexDigits (bits : UInt64) :
    parseHex64 (Text.hexDigits 16 bits.toNat) = some bits := by
  have hplus : (Text.hexDigits 16 bits.toNat).head? ≠ some '+' := by
    intro h
    obtain ⟨d, hd, hchar⟩ := Text.hexDigits_mem (List.mem_of_mem_head? h)
    have hall : ∀ d < 16, '+' ≠ Nat.digitChar d := by decide
    exact hall d hd hchar
  have hrange : bits.toNat % 16 ^ 16 = bits.toNat := Nat.mod_eq_of_lt (toNat_lt_hex bits)
  unfold parseHex64
  rw [if_neg hplus, Text.digitsNumber_hexDigits (fun d hd => hexValue_digitChar hd), hrange]
  simp only [Option.bind_eq_bind, Option.bind_some, if_pos bits.toNat_lt]
  exact congrArg some (UInt64.ofNat_toNat)

/-! ### Values, maps and operators -/

theorem ParamValue.fromToken_token (v : ParamValue) :
    ParamValue.fromToken v.token.toList = some v.canon := by
  cases v with
  | int a =>
      have htext : (ParamValue.int a).token.toList = 'i' :: a.toInt.repr.toList := by simp [token]
      rw [htext]
      simp [fromToken, parseInt64_repr, canon]
  | float bits =>
      have htext : (ParamValue.float bits).token.toList =
          'f' :: Text.hexDigits 16 (floatKey bits).toNat := by simp [token]
      rw [htext]
      simp only [fromToken, parseHex64_hexDigits, Option.map_some, canon]
  | bool a =>
      cases a with
      | false => simp [token, fromToken, canon]
      | true => simp [token, fromToken, canon]
  | str a =>
      have htext : (ParamValue.str a).token.toList = 's' :: (escapeToken a).toList := by
        simp [token]
      rw [htext]
      simp only [fromToken, unescapeToken_escapeToken, canon]

namespace ParamMap

theorem entryOfToken_entryText (e : String × ParamValue) :
    entryOfToken (entryText e) = some (e.1, e.2.canon) := by
  unfold entryOfToken entryText
  rw [Text.splitFirst_append (notMem_escapeToken (by simp [IsSeparator]) _)]
  simp [unescapeToken_escapeToken, ParamValue.fromToken_token]

theorem fromToken_token (p : ParamMap) : fromToken p.token.toList = some p.canon := by
  unfold fromToken
  by_cases hempty : p.token.toList = []
  · have hnil := List.isEmpty_iff.mp ((token_eq_empty_iff p).mp hempty)
    have hcanon : p.canon.entries = [] := by
      change p.entries.map _ = []
      rw [hnil, List.map_nil]
    rw [if_pos hempty, ← new_entries p.canon, hcanon]
  · have hentries : p.entries ≠ [] := fun h =>
      hempty ((token_eq_empty_iff p).mpr (List.isEmpty_iff.mpr h))
    have hsplit : p.token.toList.splitOn ';' = p.entries.map entryText := by
      rw [toList_token]
      refine List.splitOn_intercalate ';' ?_ (by simpa using hentries)
      intro l hl
      obtain ⟨e, -, rfl⟩ := List.mem_map.mp hl
      exact (notMem_entryText e).1
    have hdecode : (p.entries.map entryText).mapM entryOfToken = some p.canon.entries := by
      have hentry : entryOfToken ∘ entryText = fun e => pure (e.1, e.2.canon) := by
        funext e
        exact entryOfToken_entryText e
      rw [List.mapM_map, hentry, List.mapM_pure]
      rfl
    rw [if_neg hempty, hsplit, hdecode, Option.map_some, new_entries]

end ParamMap

/-! ### Operators -/

theorem parseOpToken_parts {kind : List Char} (hkind : kind = "op".toList ∨ kind = "red".toList)
    (name : String) (params : ParamMap) (token : String)
    (htoken : token.toList =
      ['|'].intercalate (kind :: (escapeToken name).toList :: paramsPart params)) :
    parseOpToken token = some (String.ofList kind, name, params.canon) := by
  have hbar : ∀ s : String, '|' ∉ (escapeToken s).toList :=
    notMem_escapeToken (by simp [IsSeparator])
  have hfirst : '|' ∉ kind := by
    rcases hkind with rfl | rfl <;> decide
  have hnot : ¬(kind ≠ "op".toList ∧ kind ≠ "red".toList) := fun h => by
    rcases hkind with hop | hred
    · exact h.1 hop
    · exact h.2 hred
  have hfields : ['|'].intercalate (kind :: (escapeToken name).toList :: paramsPart params) =
      kind ++ '|' :: ['|'].intercalate ((escapeToken name).toList :: paramsPart params) := by
    rw [List.intercalate_cons_cons, List.append_assoc]
    rfl
  unfold parseOpToken
  rw [htoken, hfields, Text.splitFirst_append hfirst]
  dsimp only
  rw [if_neg hnot]
  unfold paramsPart
  by_cases hempty : params.isEmpty = true
  · have hcanon : params.canon = .new [] := by
      have hnil := List.isEmpty_iff.mp hempty
      rw [← ParamMap.new_entries params.canon]
      change ParamMap.new (params.entries.map _) = _
      rw [hnil, List.map_nil]
    rw [if_pos hempty, List.intercalate_singleton]
    simp [Text.splitFirst_of_notMem (hbar name), unescapeToken_escapeToken, hcanon]
  · have hlast : ['|'].intercalate [(escapeToken name).toList, params.token.toList] =
        (escapeToken name).toList ++ '|' :: params.token.toList := by
      rw [List.intercalate_cons_cons, List.intercalate_singleton, List.append_assoc]
      rfl
    rw [if_neg hempty, hlast]
    simp [Text.splitFirst_append (hbar name), unescapeToken_escapeToken,
      ParamMap.fromToken_token]

/-- An operator's token begins as no other does. -/
theorem op_prefix_iff (key : NodeKey) :
    "op|".toList <+: key.token.toList ↔ key.isBoundary = false := by
  rw [NodeKey.toList_token]
  cases key with
  | op name params ins =>
      simp only [NodeKey.tokenParts, List.intercalate_cons_cons, NodeKey.isBoundary, iff_true]
      exact ⟨_, by simp; rfl⟩
  | source name params => simp [NodeKey.tokenParts, List.intercalate_cons_cons, NodeKey.isBoundary]
  | reduction name params ins =>
      simp [NodeKey.tokenParts, List.intercalate_cons_cons, NodeKey.isBoundary]
  | external d params ins =>
      simp [NodeKey.tokenParts, List.intercalate_cons_cons, NodeKey.isBoundary]
  | stage ins members => simp [NodeKey.tokenParts, List.intercalate_cons_cons, NodeKey.isBoundary]
  | exchange scheme ins =>
      simp only [NodeKey.tokenParts, paramsPart]
      split_ifs
      · simp [NodeKey.isBoundary]
      · simp [List.intercalate_cons_cons, NodeKey.isBoundary]
  | join scheme ins =>
      simp only [NodeKey.tokenParts, paramsPart]
      split_ifs
      · simp [NodeKey.isBoundary]
      · simp [List.intercalate_cons_cons, NodeKey.isBoundary]

/-- **Tokens are exact.** Two nodes have one token just when they are equal apart from their inputs,
the token of an operator or a reduction is read back as what it was made from, and only an operator
is told to be one. -/
theorem tokens_exact :
    (∀ a b : NodeKey, a.token = b.token ↔ (a.withInputs [] == b.withInputs []) = true) ∧
    (∀ name params ins,
      parseOpToken (NodeKey.op name params ins).token = some ("op", name, params.canon)) ∧
    (∀ name params ins,
      parseOpToken (NodeKey.reduction name params ins).token =
        some ("red", name, params.canon)) ∧
    ∀ key : NodeKey, "op|".toList <+: key.token.toList ↔ key.isBoundary = false := by
  refine ⟨fun a b => ?_, fun name params ins => ?_, fun name params ins => ?_, op_prefix_iff⟩
  · rw [NodeKey.token_inj, NodeKey.beq_iff, NodeKey.canon_withInputs, NodeKey.canon_withInputs]
    rfl
  · exact parseOpToken_parts (Or.inl rfl) name params _ (NodeKey.toList_token _)
  · exact parseOpToken_parts (Or.inr rfl) name params _ (NodeKey.toList_token _)

end Graphed
