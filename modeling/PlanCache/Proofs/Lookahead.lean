import PlanCache.Proofs.Frontier
import PlanCache.Proofs.OuterQuery
import PlanCache.Proofs.SharedKeys

/-!
How much of a text is put back into a query. A parse holds the tokens that it has looked at: those
of its tree and the one behind them, and all of them once a failed prediction has been reported.
Each token that it holds is put back, as itself or in a placeholder.
-/

namespace PlanCache

namespace Session

variable {input : Input} {s t : Session}

theorem seen_le_lookAt (i : Nat) (s : Session) : s.seen ≤ (s.lookAt input i).seen :=
  Nat.le_max_left _ _

theorem last_le_lookAt (s : Session) : input.last ≤ (s.lookAt input input.last).seen := by
  have hmax : min input.last input.last ≤ (s.lookAt input input.last).seen := Nat.le_max_right _ _
  rwa [Nat.min_self] at hmax

theorem report_seen (r : SyntaxError) (s : Session) : (s.report r).seen = s.seen := by
  unfold report
  split <;> rfl

theorem seen_le_report (r : SyntaxError) (s : Session) : s.seen ≤ (s.report r).seen :=
  Nat.le_of_eq (report_seen r s).symm

theorem seen_le_reportFault (f : Fault) (s : Session) : s.seen ≤ (s.reportFault input f).seen := by
  unfold reportFault
  split
  · exact seen_le_report _ s
  · dsimp only
    split
    · exact seen_le_report _ s
    · exact Nat.le_trans (seen_le_report _ s) (seen_le_lookAt _ _)
  · exact seen_le_report _ s
  · exact Nat.le_refl _

/-- The next token has always been looked at. -/
theorem Moves.pos_le_seen (h : Moves input s t) (hs : s.pos ≤ s.seen) : t.pos ≤ t.seen := by
  induction h with
  | trans _ _ ih₁ ih₂ => exact ih₂ (ih₁ hs)
  | quiet h =>
    rw [h.pos]
    exact Nat.le_trans hs h.seen
  | report s r =>
    rw [report_pos, report_seen]
    exact hs
  | fault s f =>
    rw [reportFault_pos]
    exact Nat.le_trans hs (seen_le_reportFault f s)
  | consume s => exact Nat.le_max_right _ _
  | settle | supply | exit | wrap => exact hs
  | call r site label _ ih => exact ih hs

/-- If a failed prediction has been reported, all tokens have been looked at. -/
def Stranded (input : Input) (s : Session) : Prop :=
  ∀ i j, .noViable i j ∈ s.reports → input.kind i ≠ .eof → input.last ≤ s.seen

theorem Stranded.mono (h : s.Stranded input) (hr : t.reports = s.reports) (hs : s.seen ≤ t.seen) :
    t.Stranded input := by
  intro i j hm hk
  rw [hr] at hm
  exact Nat.le_trans (h i j hm hk) hs

theorem Stranded.report (h : s.Stranded input) {r : SyntaxError} (hr : ∀ i j, r ≠ .noViable i j) :
    (s.report r).Stranded input := by
  intro i j hm hk
  rw [report_seen]
  unfold Session.report at hm
  split at hm
  · exact h i j hm hk
  · rcases List.mem_cons.1 hm with he | hm
    · exact absurd he.symm (hr i j)
    · exact h i j hm hk

theorem Stranded.reportFault (h : s.Stranded input) (f : Fault) :
    (s.reportFault input f).Stranded input := by
  cases f with
  | mismatch expected => exact h.report (by simp)
  | level n => exact h.report (by simp)
  | exhausted => exact h
  | noViable first last =>
    intro i j hm hk
    unfold Session.reportFault at hm ⊢
    dsimp only at hm ⊢
    split at hm <;> rename_i hc
    · rw [if_pos hc, report_seen]
      unfold Session.report at hm
      split at hm
      · exact h i j hm hk
      · rename_i hrec
        rcases List.mem_cons.1 hm with he | hm
        · obtain ⟨rfl, rfl⟩ := SyntaxError.noViable.inj he
          simp [hrec] at hc
          exact absurd hc hk
        · exact h i j hm hk
    · rw [if_neg hc]
      exact last_le_lookAt _

theorem Moves.stranded (h : Moves input s t) (hs : s.Stranded input) : t.Stranded input := by
  induction h with
  | trans _ _ ih₁ ih₂ => exact ih₂ (ih₁ hs)
  | quiet h => exact hs.mono h.reports h.seen
  | report s r h => exact hs.report h
  | fault s f => exact hs.reportFault f
  | consume s => exact hs.mono rfl (Nat.le_max_left _ _)
  | settle | supply | exit | wrap => exact hs.mono rfl (Nat.le_refl _)
  | call r site label _ ih => exact ih hs

end Session

/-- The tokens that a parse holds reach as far as it has read, and to the end if a prediction has
failed. -/
theorem parseKinds_seen (a : Atlas) (rule : Rule) {input : Input} (hin : input.Closed) :
    (Session.final a rule input).pos ≤ (parseKinds a rule input).seen ∧
      ∀ i j, .noViable i j ∈ (parseKinds a rule input).reports → input.kind i ≠ .eof →
        (parseKinds a rule input).seen = input.last := by
  have hmoves := moves_final a rule input
  have hpos := hmoves.pos_lt hin hin.size_pos
  have hseen := hmoves.pos_le_seen (Nat.le_refl 0)
  have hstranded := hmoves.stranded (fun i j hm ↦ by cases hm)
  rw [parseKinds_eq]
  dsimp only
  constructor
  · unfold Input.last
    omega
  · intro i j hm hk
    have hlast := hstranded i j (List.mem_reverse.1 hm) hk
    omega

namespace Parsed

/-- The tree holds every token but the mark of the end. -/
def ReadThrough (p : Parsed) : Prop := ∀ i < p.source.input.last, i ∈ p.tree.tokens

/-- A prediction has failed before the end. -/
def Stranded (p : Parsed) : Prop :=
  ∃ i j, .noViable i j ∈ p.parse.reports ∧ p.source.input.kind i ≠ .eof

variable {rule : Rule} {sql : String}

/-- The tokens of the tree are held, and the one behind them. -/
theorem index_lt_fetched {i : Nat} (hi : i ≤ (ofString rule sql).tree.tokens.length)
    (hsize : i < (Token.shown sql).length) :
    (ofString rule sql).source.index i < (ofString rule sql).fetched := by
  have hin := closed_ofString sql
  obtain ⟨n, m, hn, hpos, htokens, heof⟩ := parseKinds_tokens .sql rule hin
  have hseen := (parseKinds_seen .sql rule hin).1
  rw [← hpos] at hseen
  change i ≤ (parseKinds .sql rule (Source.ofString sql).input).tree.tokens.length at hi
  rw [htokens, List.length_append, List.length_range, List.length_replicate] at hi
  rw [← size_input] at hsize
  have hle : i ≤ n := by
    rcases Nat.eq_zero_or_pos m with rfl | hm
    · exact hi
    · have hlast : ¬n < (Source.ofString sql).input.last := fun h ↦ kind_ne_eof h (heof hm)
      unfold Input.last at hlast
      omega
  exact Nat.lt_succ_of_le (index_le_index (Nat.le_trans hle hseen) (seen_lt_size rule sql))

theorem fetched_of_seen (h : (ofString rule sql).parse.seen = (Source.ofString sql).input.last) :
    (ofString rule sql).fetched = (Token.scan sql).length := by
  rw [← index_last]
  change (Source.ofString sql).index (ofString rule sql).parse.seen + 1 = _
  rw [h]

theorem ReadThrough.fetched_eq (h : (ofString rule sql).ReadThrough) :
    (ofString rule sql).fetched = (Token.scan sql).length := by
  have hin := closed_ofString sql
  obtain ⟨n, m, hn, hpos, htokens, heof⟩ := parseKinds_tokens .sql rule hin
  have hseen := (parseKinds_seen .sql rule hin).1
  have hle : (parseKinds .sql rule (Source.ofString sql).input).seen ≤
      (Source.ofString sql).input.last := Nat.min_le_right _ _
  have hlast : ¬n < (Source.ofString sql).input.last := by
    intro hlt
    have hmem := h ((Source.ofString sql).input.last - 1)
      (Nat.sub_lt (Nat.zero_lt_of_lt hlt) Nat.one_pos)
    change _ ∈ (parseKinds .sql rule (Source.ofString sql).input).tree.tokens at hmem
    rw [htokens, List.mem_append, List.mem_range] at hmem
    rcases hmem with hmem | hmem
    · omega
    · have hm := (List.mem_replicate.1 hmem).1
      exact kind_ne_eof hlt (heof (by omega))
  apply fetched_of_seen
  change (parseKinds .sql rule (Source.ofString sql).input).seen = _
  omega

theorem Stranded.fetched_eq (h : (ofString rule sql).Stranded) :
    (ofString rule sql).fetched = (Token.scan sql).length := by
  obtain ⟨i, j, hm, hk⟩ := h
  exact fetched_of_seen ((parseKinds_seen .sql rule (closed_ofString sql)).2 i j hm hk)

end Parsed

namespace Buffer

variable {b₀ b c : Buffer} {i first last : Nat}

/-- A token has the text that it had, or the placeholder before it stands for it with nothing
between them. -/
def Covered (b₀ b : Buffer) (i : Nat) : Prop :=
  b.text i = b₀.text i ∨
    ∃ j ≤ i, b.text j = placeholder ∧ ∀ k, j < k → k ≤ i → b.text k = ""

/-- Whatever is cut out, what was covered before stays covered. -/
theorem Covered.cut (h : Covered b₀ b i) (hi : i < b.texts.size) :
    Covered b₀ (b.cut first last) i := by
  have htext : ∀ k ≤ i, (b.cut first last).text k =
      if k = first then placeholder else if first ≤ k ∧ k ≤ last then "" else b.text k := by
    intro k hk
    rw [text_cut, if_pos (by omega)]
  -- The last placeholder up to the token is the new one, if the cut begins behind the old one.
  have hfirst : first ≤ i → (∀ k, first < k → k ≤ i → last < k → b.text k = "") →
      Covered b₀ (b.cut first last) i := by
    intro hle hclear
    refine .inr ⟨first, hle, by rw [htext first hle, if_pos rfl], fun k hk hki ↦ ?_⟩
    rw [htext k hki, if_neg (by omega)]
    by_cases hkl : k ≤ last
    · rw [if_pos ⟨by omega, hkl⟩]
    · rw [if_neg (by omega)]
      exact hclear k hk hki (by omega)
  by_cases hin : i = first ∨ first ≤ i ∧ i ≤ last
  · exact hfirst (by omega) (by omega)
  rcases h with h | ⟨j, hj, hplace, hclear⟩
  · refine .inl ?_
    rw [htext i (by omega), if_neg (by omega), if_neg (by omega), h]
  · by_cases hjf : j ≤ max first last ∧ first ≤ i
    · exact hfirst hjf.2 fun k hk hki hl ↦ hclear k (by omega) hki
    · refine .inr ⟨j, hj, ?_, fun k hk hki ↦ ?_⟩
      · rw [htext j hj, if_neg (by omega), if_neg (by omega), hplace]
      · rw [htext k hki, if_neg (by omega), if_neg (by omega), hclear k hk hki]

theorem range_eq_ok {h : Head} {r : Nat × Nat} (hr : b.range h = .ok r) :
    ∃ j, h.stop = some j ∧ r = (b.source.index h.start, b.source.index j) := by
  unfold range at hr
  split at hr
  · cases hr
  · rename_i j hj
    exact ⟨j, hj, (Except.ok.inj hr).symm⟩

theorem cutNode_eq_ok {h : Head} (hc : b.cutNode h = .ok c) :
    ∃ j, h.stop = some j ∧ c = b.cut (b.source.index h.start) (b.source.index j) := by
  unfold cutNode at hc
  cases hr : b.range h with
  | error e => rw [hr] at hc; cases hc
  | ok r =>
    obtain ⟨j, hj, rfl⟩ := range_eq_ok hr
    rw [hr] at hc
    exact ⟨j, hj, (Except.ok.inj hc).symm⟩

/-- Numbers and texts of the tokens whose texts are joined. -/
def entries (b : Buffer) : List (Nat × String) :=
  (b.cells.zipIdx.filter fun x ↦ x.1.1.kind != .eof && !Text.allBlank x.1.2).map fun x ↦
    (x.2, x.1.2)

theorem rebuild_entries (b : Buffer) :
    b.rebuild = Rebuild.tidy (String.intercalate " " (b.entries.map (·.2))) := by
  have hlist : ∀ (cells : List Cell) (k : Nat), (cells.filterMap shown?).filter (!Text.allBlank ·) =
      ((cells.zipIdx k).filter fun x ↦ x.1.1.kind != .eof && !Text.allBlank x.1.2).map (·.1.2) := by
    intro cells
    induction cells with
    | nil => intro k; rfl
    | cons c cells ih =>
      intro k
      rw [List.zipIdx_cons, List.filter_cons, List.filterMap_cons, shown?]
      by_cases hk : c.1.kind = .eof
      · simp [hk, ih (k + 1)]
      · by_cases hb : Text.allBlank c.2 = true <;> simp [hk, hb, ih (k + 1)]
  have hentries : b.entries.map (·.2) = (b.cells.filterMap shown?).filter (!Text.allBlank ·) := by
    rw [hlist b.cells 0, entries, List.map_map]
    rfl
  rw [hentries, rebuild, PlanCache.rebuild, pieces, List.filterMap_map]
  rfl

theorem getElem?_cells {x : Token} (hx : b.source.tokens[i]? = some x) (hi : i < b.texts.size) :
    b.cells[i]? = some (x, b.text i) := by
  have htext : b.texts.toList[i]? = some (b.text i) := by
    rw [text, Array.getD_eq_getD_getElem?, Array.getElem?_toList, Array.getElem?_eq_getElem hi]
    rfl
  rw [cells, List.getElem?_zip_eq_some]
  exact ⟨by rw [Array.getElem?_toList, hx], htext⟩

theorem mem_entries {w : String} {x : Token} (hx : b.source.tokens[i]? = some x)
    (hi : i < b.texts.size) (hw : b.text i = w) (hk : x.kind ≠ .eof)
    (hblank : Text.allBlank w = false) : (i, w) ∈ b.entries := by
  have hcell : b.cells[i]? = some (x, w) := hw ▸ getElem?_cells hx hi
  refine List.mem_map.2 ⟨((x, w), i), List.mem_filter.2 ⟨?_, ?_⟩, rfl⟩
  · exact List.mk_mem_zipIdx_iff_getElem?.2 hcell
  · simp [hk, hblank]

/-- The text of a token is joined, or a placeholder before it with nothing between them. -/
def Present (b : Buffer) (i : Nat) (text : String) : Prop :=
  (i, text) ∈ b.entries ∨
    ∃ j ≤ i, (j, placeholder) ∈ b.entries ∧ ∀ k, j < k → k ≤ i → b.text k = ""

end Buffer

namespace Replaced

variable {s s' : Replaced} {h : Head} {ts : List Tree}

theorem cutNode_of_cut {noted : List String} (hc : s.cut noted h = .ok s') :
    s.buffer.cutNode h = .ok s'.buffer := by
  unfold cut at hc
  split at hc
  · rename_i b hb
    obtain rfl := Except.ok.inj hc
    exact hb
  · cases hc

/-- A node is cut out or left as it is. -/
theorem buffer_of_step (hs : s.step h ts = .ok s') :
    s'.buffer = s.buffer ∨ s.buffer.cutNode h = .ok s'.buffer := by
  unfold step at hs
  split at hs
  · exact .inr (cutNode_of_cut hs)
  · dsimp only at hs
    split at hs
    · exact .inr (cutNode_of_cut hs)
    · rw [Except.ok.inj hs]
      exact .inl rfl
  · split at hs
    · exact .inr (cutNode_of_cut hs)
    · rw [Except.ok.inj hs]
      exact .inl rfl
  · rw [Except.ok.inj hs]
    exact .inl rfl

end Replaced

/-- What is done to the literals of a tree covers every token that is held. -/
theorem Buffer.covered_of_replaceLiterals {b : Buffer} {t : Tree} {s : Replaced}
    (h : b.replaceLiterals t = .ok s) :
    s.buffer.source = b.source ∧ s.buffer.texts.size = b.texts.size ∧
      ∀ i < b.texts.size, Covered b s.buffer i := by
  have hresult : Halt.result (b.replaceLiterals t) = .ok s := by rw [h]; rfl
  refine passNodes_invariant (P := fun s : Replaced ↦ s.buffer.source = b.source ∧
    s.buffer.texts.size = b.texts.size ∧ ∀ i < b.texts.size, Covered b s.buffer i)
    (fun {s s' x ts} hs hx ↦ ?_) ⟨rfl, rfl, fun i _ ↦ .inl rfl⟩ hresult
  obtain ⟨hsource, hsize, hcovered⟩ := hs
  rcases Replaced.buffer_of_step hx with he | hcut
  · rw [he]
    exact ⟨hsource, hsize, hcovered⟩
  · obtain ⟨j, -, he⟩ := cutNode_eq_ok hcut
    rw [he]
    refine ⟨hsource, size_cut.trans hsize, fun i hi ↦ (hcovered i hi).cut ?_⟩
    rw [hsize]
    exact hi

theorem Buffer.Covered.present {b₀ b : Buffer} {i : Nat} {x : Token} (h : Covered b₀ b i)
    (htokens : b.source.tokens.toList.Pairwise fun x _ ↦ x.kind ≠ .eof)
    (hx : b.source.tokens[i]? = some x) (hi : i < b.texts.size) (hk : x.kind ≠ .eof)
    (hw : b₀.text i = x.text) (hblank : Text.allBlank x.text = false) : b.Present i x.text := by
  rcases h with h | ⟨j, hj, hplace, hclear⟩
  · exact .inl (mem_entries hx hi (h.trans hw) hk hblank)
  · obtain ⟨hsize, rfl⟩ := Array.getElem?_eq_some_iff.1 hx
    have hjs : j < b.source.tokens.size := by omega
    have hjk : b.source.tokens[j].kind ≠ .eof := by
      rcases Nat.lt_or_eq_of_le hj with hlt | rfl
      · exact List.pairwise_iff_getElem.1 htokens j i hjs hsize hlt
      · exact hk
    exact .inr ⟨j, hj, mem_entries (Array.getElem?_eq_getElem hjs) (by omega) hplace hjk rfl, hclear⟩

/-- What the text of a query holds of it. All tokens are held if the tree holds all but the mark of
the end, or if a failed prediction has been reported; otherwise at least those of the tree and the
one behind them. Each of them that is shown and not blank is put back, as itself or in a
placeholder. -/
theorem Buffer.rebuild_covers_held (sql : String) :
    let p := Parsed.ofString .sqlStmtList sql
    (∀ i ≤ p.tree.tokens.length, i < (Token.shown sql).length → p.source.index i < p.fetched) ∧
    (p.ReadThrough ∨ p.Stranded → p.fetched = (Token.scan sql).length) ∧
    ∀ s, (Buffer.ofParsed p).replaceLiterals p.tree = .ok s →
      s.buffer.rebuild = Rebuild.tidy (String.intercalate " " (s.buffer.entries.map (·.2))) ∧
      ∀ (i : Nat) (x : Token), (Token.scan sql)[i]? = some x → i < p.fetched →
        x.kind.isHidden = false → x.kind ≠ .eof → Text.allBlank x.text = false →
        s.buffer.Present i x.text := by
  intro p
  refine ⟨fun i hi hsize ↦ Parsed.index_lt_fetched hi hsize, fun h ↦ ?_, fun s hs ↦ ?_⟩
  · exact h.elim (·.fetched_eq) (·.fetched_eq)
  refine ⟨rebuild_entries _, fun i x hx hi _ hk hblank ↦ ?_⟩
  obtain ⟨hsource, hsize, hcovered⟩ := covered_of_replaceLiterals hs
  have hheld : i < (Buffer.ofParsed p).texts.size := (lt_size_ofString hx).2 (Nat.le_of_lt_succ hi)
  have htext : (Buffer.ofParsed p).text i = x.text :=
    (text_ofString hx).trans (if_pos (Nat.le_of_lt_succ hi))
  have htokens : s.buffer.source.tokens = (Token.scan sql).toArray := by rw [hsource]; rfl
  refine (hcovered i hheld).present ?_ ?_ (hsize ▸ hheld) hk htext hblank
  · rw [htokens]
    exact (Token.inOrder_scanFrom {} sql.toList).pairwise_ne_eof
  · rw [htokens, List.getElem?_toArray, hx]

/-- What follows a bracket that nothing opened is left out, and no error is reported. -/
theorem Buffer.rebuild_stops_at_bracket :
    let p := Parsed.ofString .sqlStmtList "BEGIN))"
    p.parse.reports = [] ∧ p.fetched + 2 = (Token.scan "BEGIN))").length ∧
      (normalize "BEGIN))").toOption = some "BEGIN )" := by
  decide +kernel

end PlanCache
