import PlanCache.Proofs.Readings
import PlanCache.Proofs.Replacements
import PlanCache.Proofs.Respacing
import PlanCache.Proofs.SelectWords

/-!
Selects whose text is empty. Where the parser gives up, a select can be ended before it has read a
token, or after it has read blank ones only. Its text is then empty and stays so when it is read as
a query of its own; the text of any other select does not become empty.
-/

namespace PlanCache

namespace Text

theorem unwords_eq_nil_iff {ws : List (List Char)} (h : ∀ w ∈ ws, w ≠ []) :
    unwords ws = [] ↔ ws = [] := by
  rcases ws with - | ⟨w, - | ⟨v, ws⟩⟩
  · simp [unwords]
  · simpa [unwords_singleton] using h
  · simp [unwords_cons_cons]

theorem squeeze_joinWords_eq_nil_iff {texts : List String} :
    squeeze (joinWords texts).toList = [] ↔ ∀ s ∈ texts, allBlank s = true := by
  rw [squeeze_joinWords, unwords_eq_nil_iff]
  · simp [List.filter_eq_nil_iff]
  · intro w hw
    obtain ⟨s, hs, rfl⟩ := List.mem_map.1 hw
    have hink := (List.mem_filter.1 hs).2
    rw [Ne, squeeze_eq_nil_iff]
    simpa [allBlank] using hink

end Text

theorem Rebuild.shorten_eq_nil_iff {cs : List Char} : shorten cs = [] ↔ cs = [] := by
  have hkept : ∀ {read}, (∀ before cs n new, read before cs = some (n, new) → new ≠ []) →
      ∀ {cs : List Char}, Text.substitute read cs = [] → cs = [] := by
    intro read hread cs hnil
    cases cs with
    | nil => rfl
    | cons c cs => exact absurd hnil (Text.substituteAfter_ne_nil hread none c cs)
  constructor
  · intro hnil
    have hlists := hkept (fun _ _ _ _ h ↦ (endsBare_run? h).1) hnil
    exact hkept (fun _ _ _ _ h ↦ (endsBare_inList? h).1) hlists
  · rintro rfl
    rfl

namespace Buffer

variable {b : Buffer} {x : Head}

/-- Nothing is put together if all that is put back is blank. -/
theorem rebuild_eq_empty_iff (b : Buffer) :
    b.rebuild = "" ↔ ∀ c ∈ b.cells, c.1.kind ≠ .eof → Text.allBlank c.2 = true := by
  rw [rebuild, PlanCache.rebuild, Rebuild.tidy_eq, String.ofList_eq_empty_iff,
    Rebuild.shorten_eq_nil_iff, Text.squeeze_joinWords_eq_nil_iff]
  simp only [pieces, List.filterMap_map, List.mem_filterMap, cells]
  constructor
  · intro h c hc hk
    exact h c.2 ⟨c, hc, by simp [hk]⟩
  · rintro h s ⟨c, hc, hs⟩
    by_cases hk : c.1.kind = .eof
    · simp [hk] at hs
    · obtain rfl : c.2 = s := by simpa [hk] using hs
      exact h c hc hk

theorem forall_mem_between {P : String → Prop} (hnil : P "") {first last : Nat} :
    (∀ s ∈ b.between first last, P s) ↔ ∀ i, first ≤ i → i ≤ last → P (b.text i) := by
  have htext : ∀ i s, b.texts.toList[i]? = some s → b.text i = s := by
    intro i s hs
    rw [text, Array.getD_eq_getD_getElem?, ← Array.getElem?_toList, hs]
    rfl
  constructor
  · intro h i hfirst hlast
    by_cases hi : i < b.texts.size
    · apply h
      rw [between, List.mem_iff_getElem?]
      refine ⟨i - first, ?_⟩
      rw [List.getElem?_take_of_lt (by omega), List.getElem?_drop, Nat.add_sub_cancel' hfirst]
      obtain ⟨s, hs⟩ : ∃ s, b.texts.toList[i]? = some s :=
        ⟨_, List.getElem?_eq_getElem (by simpa using hi)⟩
      rw [hs, htext i s hs]
    · rwa [text, Array.getD_eq_getD_getElem?, Array.getElem?_eq_none (by omega)]
  · intro h s hs
    obtain ⟨k, hk⟩ := List.mem_iff_getElem?.1 hs
    rw [between, List.getElem?_take] at hk
    split at hk
    · rw [List.getElem?_drop] at hk
      rw [← htext _ s hk]
      exact h _ (by omega) (by omega)
    · cases hk

theorem exists_squeeze_of_spacedText {q : String} (hq : b.spacedText x = .ok q) :
    ∃ j, x.stop = some j ∧ q.toList = Text.squeeze
      (Text.joinWords (b.between (b.source.index x.start) (b.source.index j))).toList := by
  unfold spacedText rangeText at hq
  cases hr : b.range x with
  | error e => rw [hr] at hq; cases hq
  | ok r =>
    obtain ⟨j, hj, rfl⟩ := range_eq_ok hr
    rw [hr] at hq
    obtain rfl := Except.ok.inj hq
    exact ⟨j, hj, by rw [String.toList_ofList, Text.trim_collapse]⟩

/-- The text of a node is empty if its tokens are blank. -/
theorem spacedText_eq_empty_iff {q : String} (hq : b.spacedText x = .ok q) :
    q = "" ↔ ∀ i, x.holds b.source i = true → Text.allBlank (b.text i) = true := by
  obtain ⟨j, hj, hsqueeze⟩ := exists_squeeze_of_spacedText hq
  rw [← String.toList_eq_nil_iff, hsqueeze, Text.squeeze_joinWords_eq_nil_iff,
    forall_mem_between (P := fun s ↦ Text.allBlank s = true) rfl]
  simp only [Head.holds_iff hj, and_imp]

end Buffer

/-- The first token of a text that does not begin with white space. -/
theorem Token.exists_scan_zero {sql : String} {c : Char} (hc : c ∈ sql.toList.head?)
    (hink : Text.isBlank c = false) : ∃ x, (Token.scan sql)[0]? = some x ∧ x.kind ≠ .eof ∧
      Text.allBlank x.text = false := by
  obtain ⟨cs, hcs⟩ : ∃ cs, sql.toList = c :: cs := List.head?_eq_some_iff.1 hc
  obtain ⟨n, hn⟩ : ∃ n, (LexRule.longest (c :: cs)).2 = n + 1 :=
    Nat.exists_eq_succ_of_ne_zero (Nat.ne_of_gt (LexRule.longest_pos _))
  rw [scan, hcs, scanFrom]
  refine ⟨_, rfl, (LexRule.isLongest_longest c cs).ne_eof, ?_⟩
  simp [Text.allBlank, hn, hink]

/-- A text that does not begin with white space is not empty without its literals: the first token
is put back, or a placeholder for it. -/
theorem normalize_ne_empty {sql key : String} (h : normalize sql = .ok key) {c : Char}
    (hc : c ∈ sql.toList.head?) (hink : Text.isBlank c = false) : key ≠ "" := by
  obtain ⟨x, hx, hkind, htext⟩ := Token.exists_scan_zero hc hink
  rw [Buffer.normalize_eq (b := (Buffer.ofString sql).1) (t := (Buffer.ofString sql).2) rfl,
    Buffer.normalized] at h
  cases hs : (Buffer.ofString sql).1.replaceLiterals (Buffer.ofString sql).2 with
  | error e => rw [hs] at h; cases h
  | ok s =>
    rw [hs] at h
    obtain rfl := Except.ok.inj h
    obtain ⟨hsource, hsize, hcovered⟩ := Buffer.covered_of_replaceLiterals hs
    have hheld : 0 < (Buffer.ofString sql).1.texts.size :=
      (lt_size_ofString hx).2 (Nat.zero_le _)
    have hshown : Text.allBlank (s.buffer.text 0) = false := by
      rcases hcovered 0 hheld with he | ⟨j, hj, hplace, -⟩
      · rw [he, text_ofString hx, if_pos (Nat.zero_le _), htext]
      · rw [Nat.le_zero.1 hj] at hplace
        rw [hplace]
        decide
    have hcell : s.buffer.cells[0]? = some (x, s.buffer.text 0) := by
      apply Buffer.getElem?_cells _ (hsize ▸ hheld)
      rw [hsource]
      exact (List.getElem?_toArray).trans hx
    intro hempty
    have hblank := (Buffer.rebuild_eq_empty_iff _).1 hempty _ (List.mem_of_getElem? hcell) hkind
    rw [hshown] at hblank
    cases hblank

theorem normalize_empty : normalize "" = .ok "" := eq_ok_of_toOption (by decide +kernel)

/-- The text of a select becomes empty only if it was. -/
theorem normalize_eq_empty_iff {b : Buffer} {x : Head} {q : String}
    (hq : b.spacedText x = .ok q) : normalize q = .ok "" ↔ q = "" := by
  constructor
  · intro hnorm
    obtain ⟨j, -, hsqueeze⟩ := Buffer.exists_squeeze_of_spacedText hq
    by_contra hne
    obtain ⟨c, cs, hcs⟩ := List.exists_cons_of_ne_nil (mt String.toList_eq_nil_iff.1 hne)
    have hc : c ∈ q.toList.head? := by rw [hcs]; rfl
    have hink : Text.isBlank c = false := by
      rw [hsqueeze] at hc
      exact (Text.spaced_squeeze _).first c hc
    exact normalize_ne_empty hnorm hc hink rfl
  · rintro rfl
    exact normalize_empty

theorem map_eq_of_mapM {ε α β : Type} {f : α → Except ε β} {l : List α} {ys : List β}
    (h : l.mapM f = .ok ys) : l.map f = ys.map .ok := by
  induction l generalizing ys with
  | nil =>
    obtain rfl := Except.ok.inj h
    rfl
  | cons x l ih =>
    rw [List.mapM_cons] at h
    obtain ⟨y, hy, h⟩ := bind_eq_ok_iff.1 h
    obtain ⟨rest, hrest, h⟩ := bind_eq_ok_iff.1 h
    obtain rfl := Except.ok.inj h
    rw [List.map_cons, List.map_cons, hy, ih hrest]

theorem mem_of_mapM {ε α β : Type} {f : α → Except ε β} {l : List α} {ys : List β}
    (h : l.mapM f = .ok ys) {y : β} : y ∈ ys ↔ ∃ x ∈ l, f x = .ok y := by
  have hmem : y ∈ ys ↔ Except.ok y ∈ ys.map (Except.ok (ε := ε)) := by simp
  rw [hmem, ← map_eq_of_mapM h, List.mem_map]

theorem exists_of_mapM {ε α β : Type} {f : α → Except ε β} {l : List α} {ys : List β}
    (h : l.mapM f = .ok ys) {x : α} (hx : x ∈ l) : ∃ y ∈ ys, f x = .ok y := by
  have hmem := List.mem_map_of_mem (f := f) hx
  rw [map_eq_of_mapM h] at hmem
  obtain ⟨y, hy, he⟩ := List.mem_map.1 hmem
  exact ⟨y, hy, he.symm⟩

namespace Normal

variable {sql : String} {n : Normal}

/-- The empty text is among the selects exactly if one of them stands over blank tokens only, or
over none at all. That does not happen in a text without errors. -/
theorem empty_mem_leaves_iff (h : Normal.ofString sql = .ok n) :
    ("" ∈ n.leaves ↔ ∃ x ∈ (Buffer.ofString sql).2.leafSelects, ∀ i,
      x.holds (Source.ofString sql) i = true →
        Text.allBlank ((Buffer.ofString sql).1.text i) = true) ∧
    ((Parsed.ofString .sqlStmtList sql).errors = [] → "" ∉ n.leaves) := by
  obtain ⟨replaced, subqueries, leaves, masked, -, hsub, hleaves, -, rfl⟩ := ofString_eq_ok h
  change (Buffer.ofString sql).1.subqueries (Buffer.ofString sql).2 = _ at hsub
  have hiff : "" ∈ leaves.eraseDups ↔ ∃ x ∈ (Buffer.ofString sql).2.leafSelects, ∀ i,
      x.holds (Source.ofString sql) i = true →
        Text.allBlank ((Buffer.ofString sql).1.text i) = true := by
    rw [List.mem_eraseDups, mem_of_mapM hleaves]
    constructor
    · rintro ⟨q, hq, hnorm⟩
      obtain ⟨x, hx, hspaced⟩ := (mem_of_mapM hsub).1 hq
      have hempty := (normalize_eq_empty_iff hspaced).1 hnorm
      exact ⟨x, hx, (Buffer.spacedText_eq_empty_iff hspaced).1 hempty⟩
    · rintro ⟨x, hx, hblank⟩
      obtain ⟨q, hq, hspaced⟩ := exists_of_mapM hsub hx
      have hempty := (Buffer.spacedText_eq_empty_iff hspaced).2 hblank
      exact ⟨q, hq, (normalize_eq_empty_iff hspaced).2 hempty⟩
  refine ⟨hiff, fun herr hmem ↦ ?_⟩
  obtain ⟨x, hx, hblank⟩ := hiff.1 hmem
  obtain ⟨y, hy, rfl⟩ := List.mem_map.1 hx
  obtain ⟨hy, hrule⟩ := List.mem_filter.1 hy
  rw [Bool.and_eq_true, beq_iff_eq] at hrule
  obtain ⟨i, hi, hink⟩ := exists_ink_of_errors herr hy hrule.1
  rw [hblank i hi] at hink
  cases hink

end Normal

def Token.unfinishedInsert : List Token :=
  [⟨.INSERT, "INSERT", 1, 0, 0, 6⟩, ⟨.blank, " ", 1, 6, 6, 1⟩, ⟨.INTO, "INTO", 1, 7, 7, 4⟩,
    ⟨.blank, " ", 1, 11, 11, 1⟩, ⟨.identifier, "t", 1, 12, 12, 1⟩, ⟨.blank, " ", 1, 13, 13, 1⟩,
    ⟨.WITH, "WITH", 1, 14, 14, 4⟩, ⟨.eof, "<EOF>", 1, 18, 18, 0⟩]

/-- The select is begun and ended at the end of the text, behind the last word. -/
def Tree.unfinishedInsert : Tree :=
  .node ⟨.sqlStmtList, 0, some 3, []⟩ [.node ⟨.sqlStmt, 0, some 3, []⟩
    [.node ⟨.insertStmt, 0, some 3, []⟩ [.leaf (.read 0) false, .leaf (.read 1) false,
      .node ⟨.tableName, 2, some 2, []⟩ [.node ⟨.anyName, 2, some 2, []⟩ [.leaf (.read 2) false]],
      .node ⟨.selectStmt, 3, some 3, []⟩
        [.node ⟨.commonTableStmt, 3, some 3, []⟩ [.leaf (.read 3) false],
        .node ⟨.selectCore, 4, some 3, []⟩ []]]]]

/-- The tokens of an insertion that breaks off, its tree, and its normal form. -/
theorem unfinishedInsert_read :
    let b := Buffer.ofTokens Token.unfinishedInsert 4
    (Token.scan "INSERT INTO t WITH" = Token.unfinishedInsert ∧
      parsed #[.INSERT, .INTO, .identifier, .WITH, .eof] = (.unfinishedInsert, 4)) ∧
    (b.subqueries .unfinishedInsert).toOption = some [""] ∧
    (Normal.ofKeys [""] b .unfinishedInsert).toOption =
      some ⟨"INSERT INTO t WITH", [""], "INSERT INTO t WITH", []⟩ := by
  decide +kernel

namespace Normal

theorem ofString_unfinishedInsert : ofString "INSERT INTO t WITH" =
    .ok ⟨"INSERT INTO t WITH", [""], "INSERT INTO t WITH", []⟩ := by
  obtain ⟨⟨hscan, hparsed⟩, hsub, hnormal⟩ := unfinishedInsert_read
  have hkeys : [""].mapM normalize = .ok [""] := by
    rw [List.mapM_cons, normalize_empty]
    rfl
  rw [ofString_eq_ofKeys (Buffer.ofString_of_scan hscan rfl hparsed) (eq_ok_of_toOption hsub) hkeys]
  exact eq_ok_of_toOption hnormal

/-- A select over no token, of an insertion that breaks off. -/
theorem empty_mem_leaves_iff_insert :
    ∃ n, ofString "INSERT INTO t WITH" = .ok n ∧
      ∃ x ∈ (Buffer.ofString "INSERT INTO t WITH").2.leafSelects, ∀ i,
        x.holds (Source.ofString "INSERT INTO t WITH") i = true →
          Text.allBlank ((Buffer.ofString "INSERT INTO t WITH").1.text i) = true :=
  ⟨_, ofString_unfinishedInsert,
    (empty_mem_leaves_iff ofString_unfinishedInsert).1.1 List.mem_cons_self⟩

/-- Not all texts that have a normal form have no empty select. -/
theorem exists_empty_mem_leaves :
    ¬∀ (sql : String) (n : Normal), ofString sql = .ok n → "" ∉ n.leaves := by
  intro h
  exact h _ _ ofString_unfinishedInsert List.mem_cons_self

end Normal

end PlanCache
