import PlanCache.Proofs.LiteralPass
import PlanCache.Proofs.Readings
import PlanCache.Proofs.Transparency

/-!
Queries that differ in blanks and in the texts of their literals are stored under one text, so one
of them is answered with the plan of the other.
-/

namespace PlanCache

namespace Buffer

/-- Whether a token lies between the first and the last of a node. -/
def covers (b : Buffer) (h : Head) (i : Nat) : Bool :=
  match b.range h with
  | .ok (first, last) => first ≤ i && i ≤ last
  | .error _ => false

end Buffer

/-- A token inside the node of a literal. -/
def InLiteral (sql : String) (i : Nat) : Prop :=
  ∃ x ∈ (Buffer.ofString sql).2.nodes,
    x.1.rule = .literalValue ∧ (Buffer.ofString sql).1.covers x.1 i = true

/-- Texts whose tokens, blanks left out, have the same kinds and, but for literals, the same
texts. -/
structure Alike (s t : String) : Prop where
  kinds : SameKinds s t
  texts : ∀ x ∈ (Token.solid s).zip (Token.solid t), x.1.1.text = x.2.1.text ∨ InLiteral s x.1.2

instance (sql : String) (i : Nat) : Decidable (InLiteral sql i) :=
  inferInstanceAs (Decidable (∃ x ∈ _, _ ∧ _))

instance (s t : String) : Decidable (SameKinds s t) := inferInstanceAs (Decidable (_ = _))

instance (s t : String) : Decidable (Alike s t) :=
  decidable_of_iff (SameKinds s t ∧ ∀ x ∈ (Token.solid s).zip (Token.solid t),
    x.1.1.text = x.2.1.text ∨ InLiteral s x.1.2) ⟨fun h ↦ ⟨h.1, h.2⟩, fun h ↦ ⟨h.1, h.2⟩⟩

section Start

variable {s t : String} {i j : Nat} {x y : Token}

theorem placed_ofString (s : String) :
    (Buffer.ofString s).2.Placed (Source.ofString s).input :=
  parseKinds_placed Grammar.sql_tame (by decide) (closed_ofString s)

theorem SameKinds.tree_eq (h : SameKinds s t) :
    (Buffer.ofString s).2 = (Buffer.ofString t).2 := by
  change (parseKinds .sql .sqlStmtList (Source.ofString s).input).tree =
    (parseKinds .sql .sqlStmtList (Source.ofString t).input).tree
  rw [h.input_eq]

/-- The node of a literal is the token at which it begins, and that is a literal. -/
theorem InLiteral.start (h : InLiteral s i) (hx : (Token.scan s)[i]? = some x) :
    x.kind ∈ literals ∧ ∃ y ∈ (Buffer.ofString s).2.nodes, y.1.rule = .literalValue ∧
      i = (Source.ofString s).index y.1.start := by
  obtain ⟨y, hy, hr, hc⟩ := h
  have hp := ((placed_ofString s).nodes y hy).1
  unfold Buffer.covers Buffer.range at hc
  cases hs : y.1.stop with
  | none =>
    rw [hs] at hc
    cases hc
  | some j =>
    rw [hs] at hc
    simp only [Bool.and_eq_true, decide_eq_true_eq] at hc
    change (Source.ofString s).index y.1.start ≤ i ∧ i ≤ (Source.ofString s).index j at hc
    rcases hp.literal hr j hs with hlt | ⟨rfl, hk⟩
    · have := index_lt_index hlt hp.start_lt
      omega
    · obtain rfl := Nat.le_antisymm hc.1 hc.2
      rw [kind_eq_of_index hp.start_lt hx] at hk
      exact ⟨KindSet.contains_ofList.1 hk, y, hy, hr, rfl⟩

theorem seen_lt_size (rule : Rule) (s : String) :
    (parseKinds .sql rule (Source.ofString s).input).seen < (Source.ofString s).input.size :=
  Nat.lt_of_le_of_lt (Nat.min_le_right _ _) (Nat.sub_lt (closed_ofString s).size_pos Nat.one_pos)

/-- Number of the last token that has been read. -/
def lastRead (s : String) : Nat :=
  (Source.ofString s).index (parseKinds .sql .sqlStmtList (Source.ofString s).input).seen

theorem texts_ofString (s : String) :
    (Buffer.ofString s).1.texts =
      (((Token.scan s).take (lastRead s + 1)).map Token.text).toArray := by
  change ((Token.scan s).toArray.take (lastRead s + 1)).map Token.text = _
  simp

theorem lt_size_ofString (hx : (Token.scan s)[i]? = some x) :
    i < (Buffer.ofString s).1.texts.size ↔ i ≤ lastRead s := by
  have hi := (List.getElem?_eq_some_iff.1 hx).1
  rw [texts_ofString, List.size_toArray, List.length_map, List.length_take]
  omega

theorem text_ofString (hx : (Token.scan s)[i]? = some x) :
    (Buffer.ofString s).1.text i = if i ≤ lastRead s then x.text else "" := by
  rw [Buffer.text, texts_ofString, Array.getD_eq_getD_getElem?, List.getElem?_toArray,
    List.getElem?_map, List.getElem?_take]
  by_cases hi : i ≤ lastRead s
  · rw [if_pos (Nat.lt_succ_of_le hi), if_pos hi, hx]
    rfl
  · rw [if_neg (by omega), if_neg hi]
    rfl

theorem SameKinds.le_lastRead_iff (h : SameKinds s t) (hp : Paired s t i j) :
    i ≤ lastRead s ↔ j ≤ lastRead t := by
  unfold lastRead
  rw [hp.le_iff (h.paired (seen_lt_size .sqlStmtList s)), h.input_eq]

theorem over_ofString (s : String) : (Buffer.ofString s).1.Over s := by
  refine ⟨rfl, fun i x hx hk ↦ ?_⟩
  rw [text_ofString hx]
  split
  · exact Token.allBlank_of_mem_scan (List.mem_of_getElem? hx) hk
  · rfl

theorem Alike.cases (h : Alike s t) {r : Nat} (hx : (Token.solid s)[r]? = some (x, i))
    (hy : (Token.solid t)[r]? = some (y, j)) : x.text = y.text ∨ InLiteral s i := by
  refine h.texts ((x, i), (y, j)) ?_
  exact List.mem_of_getElem? (List.getElem?_zip_eq_some.2 ⟨hx, hy⟩)

theorem Alike.abreast (h : Alike s t) :
    (Buffer.ofString s).1.Abreast s t (Buffer.ofString s).2.nodes (Buffer.ofString t).1 := by
  have scanned : ∀ {sql : String} {r : Nat} {x : Token} {i : Nat},
      (Token.solid sql)[r]? = some (x, i) → (Token.scan sql)[i]? = some x :=
    fun hx ↦ (Token.mem_solid.1 (List.mem_of_getElem? hx)).1
  refine ⟨over_ofString s, over_ofString t, fun hp ↦ ?_, fun hp ↦ ?_, fun hp hne ↦ ?_⟩
  · have hlast := h.kinds.le_lastRead_iff hp
    obtain ⟨r, x, y, hx, hy⟩ := hp
    rw [lt_size_ofString (scanned hx), lt_size_ofString (scanned hy), hlast]
  · have hlast := h.kinds.le_lastRead_iff hp
    obtain ⟨r, x, y, hx, hy⟩ := hp
    rw [text_ofString (scanned hx), text_ofString (scanned hy)]
    simp only [hlast]
    split
    · rcases h.cases hx hy with he | hl
      · rw [he]
        exact .refl _
      · exact Token.similar_of_literal (List.mem_of_getElem? (scanned hx))
          (List.mem_of_getElem? (scanned hy)) (Paired.kind_eq h.kinds hx hy)
          (hl.start (scanned hx)).1
    · exact .refl _
  · have hlast := h.kinds.le_lastRead_iff hp
    obtain ⟨r, x, y, hx, hy⟩ := hp
    rw [text_ofString (scanned hx), text_ofString (scanned hy)] at hne
    simp only [hlast] at hne
    split at hne
    · exact ((h.cases hx hy).resolve_left hne |>.start (scanned hx)).2
    · exact absurd rfl hne

theorem Alike.replaceLiterals (h : Alike s t) :
    Halt.Both (Replaced.Abreast s t [])
      ((Buffer.ofString s).1.replaceLiterals (Buffer.ofString s).2)
      ((Buffer.ofString t).1.replaceLiterals (Buffer.ofString t).2) := by
  rw [← h.kinds.tree_eq]
  refine passNodes_both (R := Replaced.Abreast s t) (fun x hx todo p q hpq ↦ ?_) h.abreast
  obtain ⟨hp, hl⟩ := (placed_ofString s).nodes x hx
  exact hpq.step h.kinds hp hl

/-- Texts are the same without their literals if replacing these goes in pairs to the same text. -/
theorem normalize_eq_of_both {R : Replaced → Replaced → Prop}
    (h : Halt.Both R ((Buffer.ofString s).1.replaceLiterals (Buffer.ofString s).2)
      ((Buffer.ofString t).1.replaceLiterals (Buffer.ofString t).2))
    (hrebuild : ∀ {p q}, R p q → p.buffer.rebuild = q.buffer.rebuild) :
    normalize s = normalize t := by
  unfold normalize
  generalize Buffer.ofString s = p at h ⊢
  generalize Buffer.ofString t = q at h ⊢
  dsimp only
  generalize p.1.replaceLiterals p.2 = left at h ⊢
  generalize q.1.replaceLiterals q.2 = right at h ⊢
  cases h with
  | ok hpq => exact congrArg Except.ok (hrebuild hpq)
  | error e a b => rfl

/-- Texts that are alike are the same text without their literals. -/
theorem Alike.normalize_eq (h : Alike s t) : normalize s = normalize t :=
  normalize_eq_of_both h.replaceLiterals fun hpq ↦ Buffer.Abreast.rebuild_eq h.kinds hpq

end Start

namespace Cache

variable {c : Cache} {n : Normal} {key : String}

theorem mem_keys_answer (h : key ∈ c.plans.keys ∨ n.full = key) :
    key ∈ (c.answer n).2.plans.keys := by
  cases hl : c.lookup? n.full with
  | some plan =>
    rw [answer_stored hl]
    rcases h with h | rfl
    · exact h
    · exact Table.mem_keys_iff.2 ⟨plan, get?_of_lookup? hl⟩
  | none =>
    rw [Table.mem_keys_iff, answer_get?_of_missing hl]
    split
    · exact ⟨_, rfl⟩
    · rename_i hne
      split
      · exact ⟨_, rfl⟩
      · exact Table.mem_keys_iff.1 (h.resolve_right hne)

theorem mem_keys_act {a : Action} (ha : a ≠ .clear) (h : key ∈ c.plans.keys) :
    key ∈ (c.act a).plans.keys := by
  cases a with
  | query sql =>
    cases hn : Normal.ofString sql with
    | ok n =>
      rw [act_query_of_ok hn]
      exact mem_keys_answer (.inl h)
    | error e =>
      rw [act_query_of_error hn]
      exact h
  | use enabled => exact h
  | clear => exact absurd rfl ha

theorem mem_keys_foldl_act (history : List Action) (hh : .clear ∉ history)
    (h : key ∈ c.plans.keys) : key ∈ (history.foldl act c).plans.keys := by
  induction history generalizing c with
  | nil => exact h
  | cons a history ih =>
    rw [List.mem_cons, not_or] at hh
    exact ih hh.2 (mem_keys_act (Ne.symm hh.1) h)

/-- Let `s` and `t` be alike. Then they have one text without literals; a cache that uses its plans
and has one for this text answers `t` with it, as one hit and nothing else; and it has one from the
first answer to `s` on until it is cleared. -/
theorem fetch_alike (s t : String) (h : Alike s t) :
    normalize s = normalize t ∧
    (∀ (c : Cache) (key : String) (n : Normal), c.enabled = true → normalize s = .ok key →
      key ∈ c.plans.keys → Normal.ofString t = .ok n →
        ∃ plan, c.plans.get? key = some plan ∧ c.fetch t = .ok (⟨plan, n.literals, 1⟩,
          { c with requests := c.requests + 1, hits := c.hits + 1 })) ∧
    ∀ (c c' : Cache) (answer : Answer) (history : List Action), c.fetch s = .ok (answer, c') →
      .clear ∉ history →
        ∃ key, normalize s = .ok key ∧ key ∈ (history.foldl act c').plans.keys := by
  refine ⟨h.normalize_eq, fun c key n he hs hk hn ↦ ?_, fun c c' answer history hf hh ↦ ?_⟩
  · have hfull : n.full = key := by
      rw [h.normalize_eq, Normal.normalize_of_ofString hn] at hs
      exact Except.ok.inj hs
    subst hfull
    obtain ⟨plan, hp⟩ := Table.mem_keys_iff.1 hk
    have hl : c.lookup? n.full = some plan := by
      rw [lookup?_of_enabled he, hp]
    exact ⟨plan, hp, fetch_eq_ok_iff.2 ⟨n, hn, answer_stored hl⟩⟩
  · obtain ⟨n, hn, ha⟩ := fetch_eq_ok_iff.1 hf
    refine ⟨n.full, Normal.normalize_of_ofString hn, mem_keys_foldl_act history hh ?_⟩
    have hkey : n.full ∈ (c.answer n).2.plans.keys := mem_keys_answer (.inr rfl)
    rwa [ha] at hkey

theorem parsed_literalColumns :
    parsed #[.SELECT, .number, .eof] = (.select 1 [.literalColumn 1], 2) ∧
      parsed #[.SELECT, .star, .comma, .number, .eof] =
        (.select 3 [.starColumn 1, .leaf (.read 2) false, .literalColumn 3], 4) := by
  decide +kernel

theorem parsed_number : parsed #[.SELECT, .number, .eof] = (.select 1 [.literalColumn 1], 2) :=
  parsed_literalColumns.1

theorem scan_numbers :
    Token.scan "SELECT 1" = [⟨.SELECT, "SELECT", 1, 0, 0, 6⟩, ⟨.blank, " ", 1, 6, 6, 1⟩,
        ⟨.number, "1", 1, 7, 7, 1⟩, ⟨.eof, "<EOF>", 1, 8, 8, 0⟩] ∧
      Token.scan "SELECT 2" = [⟨.SELECT, "SELECT", 1, 0, 0, 6⟩, ⟨.blank, " ", 1, 6, 6, 1⟩,
        ⟨.number, "2", 1, 7, 7, 1⟩, ⟨.eof, "<EOF>", 1, 8, 8, 0⟩] ∧
      Token.scan "SELECT\n 2" = [⟨.SELECT, "SELECT", 1, 0, 0, 6⟩, ⟨.blank, "\n", 1, 6, 6, 1⟩,
        ⟨.blank, " ", 2, 0, 7, 1⟩, ⟨.number, "2", 2, 1, 8, 1⟩, ⟨.eof, "<EOF>", 2, 2, 9, 0⟩] := by
  decide +kernel

theorem ofString_numbers :
    (Normal.ofString "SELECT 1").toOption =
        some ⟨"SELECT ?", ["SELECT ?"], "SELECT ?", ["1"]⟩ ∧
      (Normal.ofString "SELECT\n 2").toOption =
        some ⟨"SELECT ?", ["SELECT ?"], "SELECT ?", ["2"]⟩ ∧
      Alike "SELECT 1" "SELECT\n 2" := by
  obtain ⟨h₁, h₂, h₃⟩ := scan_numbers
  have hb₁ := Buffer.ofString_of_scan h₁ rfl parsed_number
  have hb₂ := Buffer.ofString_of_scan h₂ rfl parsed_number
  have hb₃ := Buffer.ofString_of_scan h₃ rfl parsed_number
  refine ⟨?_, ?_, ?_, ?_⟩
  · exact Normal.ofString_of_query "SELECT ?" hb₁ hb₁ (by decide +kernel) (by decide +kernel)
      (by decide +kernel)
  · exact Normal.ofString_of_query "SELECT ?" hb₃ hb₂ (by decide +kernel) (by decide +kernel)
      (by decide +kernel)
  · unfold SameKinds Token.solid
    rw [h₁, h₃]
    decide +kernel
  · unfold InLiteral Token.solid
    rw [h₁, h₃, hb₁]
    decide +kernel

theorem fetch_alike_numbers :
    let c := after [.query "SELECT 1"]
    ∃ plan, c.plans.get? "SELECT ?" = some plan ∧ c.fetch "SELECT\n 2" =
      .ok (⟨plan, ["2"], 1⟩, { c with requests := c.requests + 1, hits := c.hits + 1 }) := by
  obtain ⟨hs, ht, halike⟩ := ofString_numbers
  have hs := eq_ok_of_toOption hs
  have ht := eq_ok_of_toOption ht
  obtain ⟨-, hhit, hkept⟩ := fetch_alike _ _ halike
  have hfull := Normal.normalize_of_ofString hs
  have hafter := act_query_of_ok (c := {}) hs
  have hf : ({} : Cache).fetch "SELECT 1" =
      .ok ((({} : Cache).answer _).1, (({} : Cache).answer _).2) := fetch_of_ok hs
  have henabled : (after [.query "SELECT 1"]).enabled = true := by
    rw [after, List.foldl_cons, List.foldl_nil, hafter]
    exact answer_enabled _ _
  have hmem : "SELECT ?" ∈ (after [.query "SELECT 1"]).plans.keys := by
    obtain ⟨key, hkey, hmem⟩ := hkept {} _ _ [] hf List.not_mem_nil
    obtain rfl := Except.ok.inj (hfull.symm.trans hkey)
    rwa [after, List.foldl_cons, List.foldl_nil, hafter]
  exact hhit _ _ _ henabled hfull hmem ht

end Cache

end PlanCache
