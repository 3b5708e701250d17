import PlanCache.Proofs.NormalForm

/-!
A text is read in two steps: its tokens are found, and their kinds are parsed. Texts whose tokens
have the same kinds share the parse.
-/

namespace PlanCache

namespace Tree

mutual

def decEq : (t u : Tree) → Decidable (t = u)
  | .leaf l e, .leaf l' e' => decidable_of_iff (l = l' ∧ e = e') (by simp)
  | .node h ts, .node h' us =>
    have := decEqAll ts us
    decidable_of_iff (h = h' ∧ ts = us) (by simp)
  | .leaf _ _, .node _ _ => isFalse (by simp)
  | .node _ _, .leaf _ _ => isFalse (by simp)

def decEqAll : (ts us : List Tree) → Decidable (ts = us)
  | [], [] => isTrue rfl
  | t :: ts, u :: us =>
    have := decEq t u
    have := decEqAll ts us
    decidable_of_iff (t = u ∧ ts = us) (by simp)
  | [], _ :: _ => isFalse (by simp)
  | _ :: _, [] => isFalse (by simp)

end

instance : DecidableEq Tree := decEq

/-- A column of a select that is one token. -/
def starColumn (i : Nat) : Tree := .node ⟨.resultColumn, i, some i, []⟩ [.leaf (.read i) false]

/-- A column of a select that is one literal. -/
def literalColumn (i : Nat) : Tree :=
  .node ⟨.resultColumn, i, some i, []⟩
    [.node ⟨.expr, i, some i, []⟩ [.node ⟨.literalValue, i, some i, []⟩ [.leaf (.read i) false]]]

/-- A script of one select, by its last token and what follows its first. -/
def select (last : Nat) (ts : List Tree) : Tree :=
  .node ⟨.sqlStmtList, 0, some last, []⟩ [.node ⟨.sqlStmt, 0, some last, []⟩
    [.node ⟨.selectStmt, 0, some last, []⟩
      [.node ⟨.selectCore, 0, some last, []⟩ (.leaf (.read 0) false :: ts)]]]

end Tree

section Readings

variable {sql : String} {tokens : List Token} {t : Tree} {seen : Nat} {b : Buffer}

/-- Tokens and the numbers of those that the grammar reads. -/
def Source.ofTokens (tokens : List Token) : Source :=
  ⟨tokens.toArray, ((tokens.zipIdx.filter fun x ↦ !x.1.kind.isHidden).map (·.2)).toArray⟩

theorem Source.ofString_of_scan (h : Token.scan sql = tokens) :
    Source.ofString sql = .ofTokens tokens := by
  rw [← h]
  rfl

theorem Source.input_ofTokens (tokens : List Token) : (ofTokens tokens).input =
    ((tokens.filter fun x ↦ !x.kind.isHidden).map Token.kind).toArray := by
  have hfst : tokens.filter (fun x ↦ !x.kind.isHidden) =
      (tokens.zipIdx.filter fun x ↦ !x.1.kind.isHidden).map Prod.fst := by
    have hfilter := List.filter_map (f := Prod.fst) (p := fun x : Token ↦ !x.kind.isHidden)
      (l := tokens.zipIdx)
    rwa [List.zipIdx_map_fst] at hfilter
  rw [input, ofTokens, hfst, List.map_toArray, List.map_map, List.map_map]
  congr 1
  refine List.map_congr_left fun x hx ↦ ?_
  have hget := List.mem_zipIdx_iff_getElem?.1 (List.mem_filter.1 hx).1
  simp only [Function.comp_apply, Array.getD_eq_getD_getElem?, List.getElem?_toArray, hget,
    Option.getD_some]

/-- The kinds that the grammar reads of the tokens that are not hidden. -/
theorem Source.input_of_scan {kinds : List Kind} (hscan : Token.scan sql = tokens)
    (hkinds : (tokens.filter fun x ↦ !x.kind.isHidden).map Token.kind = kinds) :
    (Source.ofString sql).input = kinds.toArray := by
  rw [ofString_of_scan hscan, input_ofTokens, hkinds]

/-- Tokens that have been read up to one of those that the grammar reads. -/
def Buffer.ofTokens (tokens : List Token) (seen : Nat) : Buffer :=
  let source := Source.ofTokens tokens
  ⟨source, (source.tokens.take (source.index seen + 1)).map Token.text⟩

/-- The tree of a script and how far it has been read. -/
def parsed (input : Input) : Tree × Nat :=
  let p := parseKinds .sql .sqlStmtList input
  (p.tree, p.seen)

theorem Buffer.ofString_of_scan {kinds : List Kind} (hscan : Token.scan sql = tokens)
    (hkinds : (tokens.filter fun x ↦ !x.kind.isHidden).map Token.kind = kinds)
    (hparsed : parsed kinds.toArray = (t, seen)) :
    Buffer.ofString sql = (.ofTokens tokens seen, t) := by
  obtain ⟨ht, hseen⟩ := Prod.mk.inj hparsed
  unfold ofString Parsed.ofString
  rw [← Source.input_of_scan hscan hkinds] at ht hseen
  rw [Source.ofString_of_scan hscan] at ht hseen ⊢
  rw [ofTokens, ← hseen, ← ht]
  rfl

namespace Buffer

/-- Text of a query without its literals. -/
def normalized (b : Buffer) (t : Tree) : Except RangeError String :=
  (Halt.result (b.replaceLiterals t)).map fun s ↦ s.buffer.rebuild

theorem normalize_eq (hb : Buffer.ofString sql = (b, t)) : normalize sql = b.normalized t := by
  unfold normalize normalized
  rw [hb]
  dsimp only
  cases Halt.result (b.replaceLiterals t) <;> rfl

end Buffer

namespace Normal

/-- The normal form of a query from its tokens, its tree and the texts of its selects. -/
def ofKeys (keys : List String) (b : Buffer) (t : Tree) : Except RangeError Normal := do
  let replaced ← Halt.result (b.replaceLiterals t)
  let masked ← Halt.result (replaced.buffer.maskNested t)
  return ⟨replaced.buffer.rebuild, keys.eraseDups, masked.buffer.rebuild, b.literals t⟩

theorem ofString_eq_ofKeys {queries keys : List String} (hb : Buffer.ofString sql = (b, t))
    (hq : b.subqueries t = .ok queries) (hk : queries.mapM normalize = .ok keys) :
    ofString sql = ofKeys keys b t := by
  unfold ofString
  rw [hb]
  dsimp only
  rw [hq]
  unfold ofKeys
  cases Halt.result (b.replaceLiterals t) with
  | error e => rfl
  | ok s => simp only [bind, Except.bind, hk]

/-- The normal form of a query with one select that holds no other. -/
theorem ofString_of_query {query : String} (key : String) {b' : Buffer} {t' : Tree} {n : Normal}
    (hb : Buffer.ofString sql = (b, t)) (hb' : Buffer.ofString query = (b', t'))
    (hq : (b.subqueries t).toOption = some [query]) (hk : (b'.normalized t').toOption = some key)
    (hn : (ofKeys [key] b t).toOption = some n) : (ofString sql).toOption = some n := by
  have hkeys : [query].mapM normalize = .ok [key] := by
    rw [List.mapM_cons, Buffer.normalize_eq hb', eq_ok_of_toOption hk]
    rfl
  rw [ofString_eq_ofKeys hb (eq_ok_of_toOption hq) hkeys, hn]

end Normal

end Readings

end PlanCache
