import PlanCache.Proofs.Moves
import PlanCache.Proofs.Rescanning
import PlanCache.Proofs.TokenPairs

/-!
The leaves of a parse: read from left to right they are the tokens of the text from the first on,
each once and in order. Only the mark of the end can stand there more than once, since it is never
passed.
-/

namespace PlanCache

/-- The token of the input that a leaf is, if it is one. -/
def Leaf.token? : Leaf → Option Nat
  | .read i => some i
  | .missing _ => none

namespace Tree

/-- Numbers of the tokens below a tree, without those that were missing. -/
def tokens (t : Tree) : List Nat := t.leaves.filterMap fun x ↦ x.1.token?

def tokensAll (ts : List Tree) : List Nat := (leavesAll ts).filterMap fun x ↦ x.1.token?

theorem tokens_node (h : Head) (ts : List Tree) : (node h ts).tokens = tokensAll ts := by
  rw [tokens, leaves, tokensAll]

theorem tokens_leaf (l : Leaf) (e : Bool) : (leaf l e).tokens = l.token?.toList := by
  rw [tokens, leaves]
  cases l <;> rfl

theorem tokensAll_concat (ts : List Tree) (t : Tree) :
    tokensAll (ts ++ [t]) = tokensAll ts ++ t.tokens := by
  induction ts with
  | nil => simp [tokensAll, tokens, leavesAll]
  | cons u ts ih =>
    simp only [tokensAll, List.cons_append, leavesAll, List.filterMap_append,
      List.append_assoc] at ih ⊢
    rw [ih]

end Tree

namespace Session

variable {input : Input} {s t : Session}

/-- Tokens below the node that is open. -/
def tokens (s : Session) : List Nat := Tree.tokensAll s.draft.children.reverse

theorem tokens_push (s : Session) (tree : Tree) :
    Tree.tokensAll (s.draft.push tree).children.reverse = s.tokens ++ tree.tokens := by
  have he : (s.draft.push tree).children.reverse = s.draft.children.reverse ++ [tree] :=
    List.reverse_cons
  rw [he, Tree.tokensAll_concat]
  rfl

theorem tokens_close (s : Session) (stop : Option Nat) : (s.draft.close stop).tokens = s.tokens :=
  Tree.tokens_node _ _

/-- The open node holds the tokens from its first one on, and the mark of the end any number of
times once it has been reached. -/
structure InStep (input : Input) (s : Session) : Prop where
  start_le : s.draft.start ≤ s.pos
  tokens : ∃ m, s.tokens =
    List.range' s.draft.start (s.pos - s.draft.start) ++ List.replicate m s.pos ∧
      (0 < m → input.kind s.pos = .eof)

theorem pos_consume_of_eof (h : input.kind s.pos = .eof) : (s.consume input).pos = s.pos :=
  if_pos h

theorem pos_consume_of_ne_eof (h : input.kind s.pos ≠ .eof) :
    (s.consume input).pos = s.pos + 1 := if_neg h

theorem Moves.start (h : Moves input s t) : t.draft.start = s.draft.start := by
  induction h with
  | trans _ _ ih₁ ih₂ => exact ih₂.trans ih₁
  | quiet h => exact h.start
  | report s r =>
    unfold Session.report
    split <;> rfl
  | fault s f =>
    unfold reportFault Session.report
    repeat' split
    all_goals rfl
  | settle | consume | supply | exit | wrap => rfl
  | call r site label => cases label <;> rfl

/-- Nothing is read past the end. -/
theorem Moves.pos_of_eof (h : Moves input s t) (hs : input.kind s.pos = .eof) : t.pos = s.pos := by
  induction h with
  | trans _ _ ih₁ ih₂ =>
    have h₁ := ih₁ hs
    rw [← h₁] at hs ⊢
    exact ih₂ hs
  | quiet h => exact h.pos
  | report s r => exact report_pos r s
  | fault s f => exact reportFault_pos f s
  | consume s => exact pos_consume_of_eof hs
  | settle | supply | exit | wrap => rfl
  | call r site label _ ih => exact ih hs

theorem Moves.pos_le (h : Moves input s t) : s.pos ≤ t.pos := by
  induction h with
  | trans _ _ ih₁ ih₂ => exact Nat.le_trans ih₁ ih₂
  | quiet h => exact Nat.le_of_eq h.pos.symm
  | report s r => exact Nat.le_of_eq (report_pos r s).symm
  | fault s f => exact Nat.le_of_eq (reportFault_pos f s).symm
  | consume s =>
    unfold Session.consume
    dsimp only
    split <;> omega
  | settle | supply | exit | wrap => apply Nat.le_refl
  | call r site label _ ih => exact ih

theorem InStep.opening (rule : Rule) : (opening rule).InStep input :=
  ⟨Nat.le_refl _, 0, by simp [Session.tokens, Session.opening, Tree.tokensAll, Tree.leavesAll],
    by simp⟩

theorem InStep.of_draft_eq (h : s.InStep input) (hp : t.pos = s.pos)
    (hs : t.draft.start = s.draft.start) (hc : t.draft.children = s.draft.children) :
    t.InStep input := by
  obtain ⟨hle, hm⟩ := h
  rw [← hp, ← hs] at hle
  refine ⟨hle, ?_⟩
  rw [Session.tokens, hp, hs, hc]
  exact hm

theorem InStep.consume (h : s.InStep input) : (s.consume input).InStep input := by
  obtain ⟨hle, m, hm, heof⟩ := h
  have htokens : (s.consume input).tokens = s.tokens ++ [s.pos] := by
    have hpush := s.tokens_push (.leaf (.read s.pos) s.recovering)
    rw [Tree.tokens_leaf] at hpush
    exact hpush
  have hstart : (s.consume input).draft.start = s.draft.start := rfl
  by_cases hk : input.kind s.pos = .eof
  · have hpos := pos_consume_of_eof hk
    refine ⟨by omega, m + 1, ?_, fun _ ↦ by rw [hpos]; exact hk⟩
    rw [htokens, hm, hpos, hstart, List.append_assoc, List.replicate_succ']
  · have hpos := pos_consume_of_ne_eof hk
    obtain rfl : m = 0 := Nat.eq_zero_of_not_pos fun hpos ↦ hk (heof hpos)
    refine ⟨by omega, 0, ?_, by omega⟩
    have hlen : s.pos + 1 - s.draft.start = s.pos - s.draft.start + 1 := by omega
    have hlast : s.draft.start + (s.pos - s.draft.start) = s.pos := by omega
    rw [htokens, hm, hpos, hstart, hlen, List.range'_concat, Nat.one_mul, hlast]
    simp

/-- A node that is in step is taken into one that is. -/
theorem InStep.call (hs : s.InStep input) (ht : t.InStep input) (hstart : t.draft.start = s.pos)
    (hstay : input.kind s.pos = .eof → t.pos = s.pos) :
    s.draft.start ≤ t.pos ∧ ∃ m, s.tokens ++ t.tokens =
      List.range' s.draft.start (t.pos - s.draft.start) ++ List.replicate m t.pos ∧
        (0 < m → input.kind t.pos = .eof) := by
  obtain ⟨hle, m, hsm, heof⟩ := hs
  obtain ⟨hle', m', htm, heof'⟩ := ht
  rw [hstart] at hle' htm
  refine ⟨by omega, m + m', ?_, fun hpos ↦ ?_⟩
  · by_cases hm0 : m = 0
    · subst hm0
      have hlen : t.pos - s.draft.start = (s.pos - s.draft.start) + (t.pos - s.pos) := by omega
      have hmid : s.draft.start + (s.pos - s.draft.start) = s.pos := by omega
      rw [hsm, htm, hlen, ← List.range'_append_1, hmid]
      simp
    · have hp : t.pos = s.pos := hstay (heof (by omega))
      rw [hsm, htm, hp, ← List.replicate_append_replicate]
      simp
  · by_cases hm0 : m' = 0
    · have hk := heof (by omega)
      rw [hstay hk]
      exact hk
    · exact heof' (by omega)

theorem Moves.inStep (h : Moves input s t) (hs : s.InStep input) : t.InStep input := by
  induction h with
  | trans _ _ ih₁ ih₂ => exact ih₂ (ih₁ hs)
  | quiet h => exact hs.of_draft_eq h.pos h.start h.children
  | report s r => exact hs.of_draft_eq (report_pos r s) (by rw [report_draft]) (by rw [report_draft])
  | fault s f =>
    exact hs.of_draft_eq (reportFault_pos f s) (by rw [reportFault_draft])
      (by rw [reportFault_draft])
  | consume s => exact hs.consume
  | settle | exit => exact hs.of_draft_eq rfl rfl rfl
  | supply s k =>
    have hpush := s.tokens_push (.leaf (.missing k) true)
    rw [Tree.tokens_leaf] at hpush
    obtain ⟨hle, m, hm, heof⟩ := hs
    refine ⟨hle, m, ?_, heof⟩
    rw [Session.tokens, hpush, hm]
    exact List.append_nil _
  | @call s t r site label h ih =>
    have ht : t.InStep input := by
      apply ih
      exact ⟨Nat.le_refl _, 0, by simp [Session.tokens, enter, Tree.tokensAll, Tree.leavesAll], nofun⟩
    have hpush := s.tokens_push (t.draft.close t.previous)
    rw [tokens_close] at hpush
    have hcall := hs.call ht h.start h.pos_of_eof
    rw [← hpush] at hcall
    cases label <;> exact ⟨hcall.1, hcall.2⟩
  | wrap s =>
    obtain ⟨hle, hm⟩ := hs
    refine ⟨hle, ?_⟩
    have htokens : s.wrap.tokens = s.tokens := by
      have hone : s.wrap.tokens = (s.draft.close s.previous).tokens := Tree.tokensAll_concat [] _
      rw [hone, tokens_close]
    rw [htokens]
    exact hm

theorem Moves.pos_lt (hin : input.Closed) (h : Moves input s t) (hs : s.pos < input.size) :
    t.pos < input.size := by
  induction h with
  | trans _ _ ih₁ ih₂ => exact ih₂ (ih₁ hs)
  | quiet h => rw [h.pos]; exact hs
  | report s r => rw [report_pos]; exact hs
  | fault s f => rw [reportFault_pos]; exact hs
  | consume s =>
    by_cases hk : input.kind s.pos = .eof
    · rw [pos_consume_of_eof hk]
      exact hs
    · rw [pos_consume_of_ne_eof hk]
      have hne : s.pos ≠ input.size - 1 := fun he ↦ hk (he ▸ hin.last)
      omega
  | settle | supply | exit | wrap => exact hs
  | call r site label _ ih => exact ih hs

end Session

/-- The tokens below the tree of a parse, in order. -/
theorem parseKinds_tokens (a : Atlas) (rule : Rule) {input : Input} (hin : input.Closed) :
    ∃ n m, n < input.size ∧ n = (Session.final a rule input).pos ∧
      (parseKinds a rule input).tree.tokens = List.range n ++ List.replicate m n ∧
      (0 < m → input.kind n = .eof) := by
  have hmoves := moves_final a rule input
  obtain ⟨-, m, hm, heof⟩ := hmoves.inStep (.opening rule)
  rw [hmoves.start] at hm
  refine ⟨_, m, hmoves.pos_lt hin hin.size_pos, rfl, ?_, heof⟩
  rw [parseKinds_eq, Session.tokens_close, hm, List.range_eq_range']
  rfl

/-- The tokens of a text that the grammar reads, the mark of the end last. -/
def Token.shown (sql : String) : List Token := (scan sql).filter fun t ↦ !t.kind.isHidden

section Shown

variable {sql : String}

theorem map_fst_visible (sql : String) : (Token.visible sql).map (·.1) = Token.shown sql := by
  have hf : Token.visible sql = (Token.scan sql).zipIdx.filter fun x ↦ !x.1.kind.isHidden := by
    unfold Token.visible Token.solid
    rw [List.filter_filter]
    refine List.filter_congr fun x _ ↦ ?_
    cases x.1.kind <;> rfl
  have hmap := List.filter_map (f := Prod.fst) (p := fun t : Token ↦ !t.kind.isHidden)
    (l := (Token.scan sql).zipIdx)
  rw [List.zipIdx_map_fst] at hmap
  rw [hf, Token.shown, hmap]
  rfl

theorem size_input (sql : String) :
    (Source.ofString sql).input.size = (Token.shown sql).length := by
  rw [input_ofString, List.size_toArray, List.length_map, ← map_fst_visible, List.length_map]

theorem getElem?_shown {m : Nat} (hm : m < (Source.ofString sql).input.size) :
    (Token.shown sql)[m]? = some ((Source.ofString sql).token m) := by
  obtain ⟨⟨x, i⟩, hx⟩ := exists_visible_of_lt hm
  have hscan := (Token.mem_solid.1 (List.mem_filter.1 (List.mem_of_getElem? hx)).1).1
  have htoken : (Source.ofString sql).tokens[i]? = some x := by
    rw [← hscan]
    exact List.getElem?_toArray
  rw [← map_fst_visible, List.getElem?_map, hx, Source.token, index_of_visible hx,
    Array.getD_eq_getD_getElem?, htoken]
  rfl

theorem kind_token {m : Nat} (hm : m < (Source.ofString sql).input.size) :
    ((Source.ofString sql).token m).kind = (Source.ofString sql).input.kind m := by
  have hshown := getElem?_shown hm
  rw [← map_fst_visible, List.getElem?_map, Option.map_eq_some_iff] at hshown
  obtain ⟨x, hx, he⟩ := hshown
  rw [Input.kind, input_ofString, Array.getD_eq_getD_getElem?, List.getElem?_toArray,
    List.getElem?_map, hx, ← he]
  rfl

/-- Only the last token is the mark of the end. -/
theorem kind_ne_eof {m : Nat} (hm : m < (Source.ofString sql).input.last) :
    (Source.ofString sql).input.kind m ≠ .eof := by
  have hlast : (Source.ofString sql).input.last < (Source.ofString sql).input.size :=
    Nat.sub_lt (closed_ofString sql).size_pos Nat.one_pos
  have hsize := Nat.lt_trans hm hlast
  have hpair : (Token.shown sql).Pairwise fun x _ ↦ x.kind ≠ .eof :=
    (Token.inOrder_scanFrom {} sql.toList).pairwise_ne_eof.sublist List.filter_sublist
  obtain ⟨hm', he⟩ := List.getElem?_eq_some_iff.1 (getElem?_shown hsize)
  obtain ⟨hlast', -⟩ := List.getElem?_eq_some_iff.1 (getElem?_shown hlast)
  rw [← kind_token hsize, ← he]
  exact List.pairwise_iff_getElem.1 hpair _ _ hm' hlast' hm

theorem index_last (sql : String) :
    (Source.ofString sql).index (Source.ofString sql).input.last + 1 = (Token.scan sql).length := by
  obtain ⟨ts, x, hs, hx⟩ := Token.scanFrom_eof {} sql.toList
  have hvisible : ∃ ys, Token.visible sql = ys ++ [(x, ts.length)] := by
    unfold Token.visible Token.solid Token.scan
    rw [hs, List.zipIdx_append, List.filter_append, List.filter_append]
    simp [hx, Kind.isHidden]
  obtain ⟨ys, hys⟩ := hvisible
  have hlast : (Token.visible sql)[(Source.ofString sql).input.last]? = some (x, ts.length) := by
    rw [Input.last, input_ofString, List.size_toArray, List.length_map, hys]
    simp
  have hlen : (Token.scan sql).length = ts.length + 1 := by
    rw [Token.scan, hs, List.length_append, List.length_singleton]
  rw [index_of_visible hlast, hlen]

/-- The first tokens by their numbers. -/
theorem map_token_range {n : Nat} (hn : n ≤ (Source.ofString sql).input.size) :
    (List.range n).map (Source.ofString sql).token = (Token.shown sql).take n := by
  apply List.ext_getElem?
  intro i
  rw [List.getElem?_map, List.getElem?_take]
  by_cases hi : i < n
  · rw [if_pos hi, List.getElem?_range hi, getElem?_shown (by omega)]
    rfl
  · rw [if_neg hi, List.getElem?_eq_none (by simp; omega)]
    rfl

end Shown

end PlanCache
