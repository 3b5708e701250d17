import PlanCache.Proofs.OneLine

/-!
The tokens that the grammar reads, written with single spaces between them, are read again as the
same tokens with a blank between any two. A quotation mark that nothing closes stays alone, since
all that is written behind it has stood behind it before.
-/

namespace PlanCache

open LexRule

/-- The tokens that the grammar reads of a text, without the mark of the end. -/
def Token.readable (sql : String) : List Token :=
  (scan sql).filter fun x ↦ x.channel == 0 && x.kind != .eof

/-- The texts of tokens with single spaces between them. -/
def Token.spaced (xs : List Token) : String := String.intercalate " " (xs.map Token.text)

/-- Kind and text of a token. -/
def Token.lexeme (x : Token) : Kind × String := (x.kind, x.text)

theorem map_lexeme_scan (sql : String) :
    (Token.scan sql).map Token.lexeme =
      (lexemes sql.toList).map fun y ↦ (y.1, String.ofList y.2) := by
  rw [lexemes, List.map_map]
  refine List.map_congr_left fun x _ ↦ ?_
  rw [Function.comp_apply, String.ofList_toList]
  rfl

section Lexemes

variable {u rest tail : List Char} {k : Kind} {x : Token} {xs : List Token}

/-- A token other than a comment to the end of the line ends where it did before a space, if nothing
that could close it has come to stand behind it. -/
theorem longest_before_space (h : IsLongest (u ++ rest) k u.length) (hk : k ≠ .lineComment)
    (ht : Ends tail) (hmarks : ∀ c ∈ tail, c ∈ ['"', '\x60', ']', '\''] → c ∈ rest) :
    longest (u ++ tail) = (k, u.length) := by
  by_cases ho : ∃ o b, Opens u o b
  · obtain ⟨o, b, ho⟩ := ho
    by_cases hlen : u.length = 1
    · -- the mark was not closed, so what closes it was not in the rest
      obtain ⟨c, rfl⟩ := List.length_eq_one_iff.1 hlen
      obtain ⟨rfl, -, -, d, hd, hcloser⟩ := closer_of_opens_singleton ho
      refine longest_of_unclosed h ho ht fun d' hd' hc' ↦ ?_
      obtain rfl := Option.some.inj (hcloser.symm.trans hc')
      exact not_mem_of_unclosed h ho hcloser (hmarks d hd' hd)
    · obtain ⟨r, hr, rfl, ha⟩ := h.firstOf.exists_rule
      obtain ⟨hkind, hend⟩ := ha.of_opens hr ho hlen
      have hclosed : o.fence.read .inside b = .outside := by
        refine hend.resolve_left fun hline ↦ hk ?_
        rw [hkind]
        exact ho.line_iff.1 hline
      rw [hkind]
      exact longest_of_closed ho hclosed ht
  · exact longest_of_not_opens h ho ht

theorem ends_behind (ws : List (List Char)) : Ends (behind ws) := by
  cases ws with
  | nil => exact .inl rfl
  | cons w ws => exact .inr ⟨_, rfl⟩

/-- The marks behind a token have been behind it before. -/
theorem marks_behind (h : ∀ y ∈ xs, ∀ c ∈ y.text.toList, c ∈ rest ∨ c ∈ "<EOF>".toList) :
    ∀ c ∈ behind (xs.map fun y ↦ y.text.toList), c ∈ ['"', '\x60', ']', '\''] → c ∈ rest := by
  intro c hc hmark
  have hno : ['"', '\x60', ']', '\''].all (fun c ↦ c != ' ' && !"<EOF>".toList.contains c) =
      true := by
    decide
  have hmark := List.all_eq_true.1 hno c hmark
  rw [Bool.and_eq_true, bne_iff_ne, Bool.not_eq_true', List.contains_eq_mem,
    decide_eq_false_iff_not] at hmark
  cases xs with
  | nil => cases hc
  | cons x xs =>
    rcases List.mem_cons.1 hc with hc | hc
    · exact absurd hc hmark.1
    · rcases Text.mem_unwords hc with hc | ⟨w, hw, hc⟩
      · exact absurd hc hmark.1
      · obtain ⟨y, hy, rfl⟩ : ∃ y ∈ x :: xs, y.text.toList = w := List.mem_map.1 hw
        exact (h y hy c hc).resolve_right hmark.2

theorem map_lexeme_spaced (hx : InOrder xs) (hk : ∀ x ∈ xs, x.kind ∉ [.eof, .lineComment]) :
    (lexemes (Text.unwords (xs.map fun x ↦ x.text.toList))).map
        (fun y ↦ (y.1, String.ofList y.2)) =
      (xs.map Token.lexeme).intersperse (.blank, " ") ++ [(.eof, "<EOF>")] := by
  have hend : [((.eof : Kind), "<EOF>".toList)].map (fun y ↦ (y.1, String.ofList y.2)) =
      [(.eof, "<EOF>")] := rfl
  induction xs with
  | nil =>
    rw [List.map_nil, Text.unwords, List.intercalate_nil, lexemes_nil, hend]
    rfl
  | cons x xs ih =>
    rw [List.forall_mem_cons] at hk
    obtain ⟨heof, hline⟩ : x.kind ≠ .eof ∧ x.kind ≠ .lineComment := by simpa using hk.1
    obtain ⟨rest, hlong, hrest, hxs⟩ := hx.of_cons.resolve_left fun he ↦ heof he.1
    have hfirst := longest_before_space hlong hline (ends_behind _) (marks_behind hrest)
    rw [List.map_cons, unwords_cons, lexemes_append (List.length_pos_iff.1 hlong.pos) hfirst,
      List.map_cons, String.ofList_toList]
    cases xs with
    | nil =>
      rw [List.map_nil, behind, lexemes_nil, hend]
      rfl
    | cons y ys =>
      have htail := ih hxs hk.2
      rw [List.map_cons] at htail ⊢
      rw [behind, lexemes_space, List.map_cons, htail]
      rfl

end Lexemes

/-- The grammar reads tokens of this kind, and it is not the mark of the end. -/
def Kind.isReadable (k : Kind) : Bool := !k.isHidden && k != .eof

theorem Token.readable_eq (sql : String) :
    readable sql = (scan sql).filter (·.kind.isReadable) := by
  refine List.filter_congr fun x _ ↦ ?_
  rw [Kind.isReadable, Token.channel]
  cases x.kind.isHidden <;> rfl

theorem map_lexeme_readable (sql : String) :
    (Token.readable sql).map Token.lexeme =
      ((Token.scan sql).map Token.lexeme).filter (·.1.isReadable) := by
  rw [Token.readable_eq, List.filter_map]
  rfl

theorem filter_intersperse {α : Type} {p : α → Bool} {sep : α} {l : List α} (hsep : p sep = false)
    (hl : ∀ a ∈ l, p a = true) : (l.intersperse sep).filter p = l := by
  induction l with
  | nil => rfl
  | cons a l ih =>
    rw [List.forall_mem_cons] at hl
    cases l with
    | nil => simp [hl.1]
    | cons b l => simp [hl.1, hsep, ih hl.2]

/-- Written with single spaces, the tokens that the grammar reads of a text are the tokens that it
reads again, and one blank stands between each two of them. -/
theorem scan_spaced (sql : String) :
    (Token.scan (Token.spaced (Token.readable sql))).map Token.lexeme =
      ((Token.readable sql).map Token.lexeme).intersperse (.blank, " ") ++ [(.eof, "<EOF>")] ∧
    (Token.readable (Token.spaced (Token.readable sql))).map Token.lexeme =
      (Token.readable sql).map Token.lexeme := by
  have hkinds : ∀ x ∈ Token.readable sql, x.kind.isReadable = true := by
    intro x hx
    rw [Token.readable_eq] at hx
    exact (List.mem_filter.1 hx).2
  have hsolid : ∀ x ∈ Token.readable sql, x.kind ∉ [.eof, .lineComment] := by
    intro x hx hk
    have hreadable := hkinds x hx
    simp only [List.mem_cons, List.not_mem_nil, or_false] at hk
    rcases hk with hk | hk <;> rw [hk] at hreadable <;> cases hreadable
  have hscan : (Token.scan (Token.spaced (Token.readable sql))).map Token.lexeme =
      ((Token.readable sql).map Token.lexeme).intersperse (.blank, " ") ++ [(.eof, "<EOF>")] := by
    have horder : InOrder (Token.readable sql) :=
      (Token.inOrder_scanFrom _ _).sublist List.filter_sublist
    rw [map_lexeme_scan, Token.spaced, String.toList_intercalate, List.map_map]
    exact map_lexeme_spaced horder hsolid
  refine ⟨hscan, ?_⟩
  rw [map_lexeme_readable, hscan, List.filter_append, filter_intersperse rfl]
  · exact List.append_nil _
  · intro y hy
    obtain ⟨x, hx, rfl⟩ := List.mem_map.1 hy
    exact hkinds x hx

end PlanCache
