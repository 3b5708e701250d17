import PlanCache.Proofs.InnerLiterals
import PlanCache.Proofs.Positions
import PlanCache.Proofs.Respacing

/-!
A text without comments is written in one line and read again. If white space stands inside its
tokens only between quotation marks, the tokens are the same, but for the width of that white space.
-/

namespace PlanCache

open LexRule

/-- Whether white space in a token of this kind stands between marks: in strings, in blobs, and in
names and parameters that are quoted. -/
def Token.quoted (x : Token) : Bool :=
  match x.kind with
  | .string | .blob => true
  | .identifier => x.text.toList.head?.any fun c ↦ Opening.names.any (·.1 == c)
  | .parameter => (x.text.toList[1]?).any fun c ↦ Opening.names.any (·.1 == c)
  | _ => false

/-- No comments, and white space in other tokens only between marks. -/
structure Unbroken (sql : String) : Prop where
  comments : ∀ x ∈ Token.scan sql, x.kind ≠ .lineComment ∧ x.kind ≠ .blockComment
  quoted : ∀ x ∈ Token.scan sql, x.kind ≠ .blank → x.text.toList.any Text.isBlank = true →
    x.quoted = true

instance (sql : String) : Decidable (Unbroken sql) :=
  decidable_of_iff ((∀ x ∈ Token.scan sql, x.kind ≠ .lineComment ∧ x.kind ≠ .blockComment) ∧
    ∀ x ∈ Token.scan sql, x.kind ≠ .blank → x.text.toList.any Text.isBlank = true →
      x.quoted = true) ⟨fun h ↦ ⟨h.1, h.2⟩, fun h ↦ ⟨h.1, h.2⟩⟩

section Words

variable {sql : String} {x : Token} {xs : List Token} {u rest tail : List Char} {k : Kind}

/-- A quoted token is no bare text. -/
theorem kind_of_quoted (h : x.quoted = true) :
    x.kind ∉ [.blank, .stray, .lineComment] ∧
      (x.kind ∈ [.identifier, .parameter] → ∃ c ∈ x.text.toList, isCalm c = false) := by
  have hmark : ∀ c : Char, Opening.names.any (·.1 == c) = true → isCalm c = false := by
    intro c hc
    simp only [Opening.names, List.any_cons, List.any_nil, Bool.or_false, Bool.or_eq_true,
      beq_iff_eq] at hc
    rcases hc with rfl | rfl | rfl <;> rfl
  unfold Token.quoted at h
  split at h <;> rename_i hk
  · simp [hk]
  · simp [hk]
  · obtain ⟨c, hc, hm⟩ := (Option.any_eq_true _ _).1 h
    exact ⟨by simp [hk], fun _ ↦ ⟨c, List.mem_of_head? hc, hmark c hm⟩⟩
  · obtain ⟨c, hc, hm⟩ := (Option.any_eq_true _ _).1 h
    exact ⟨by simp [hk], fun _ ↦ ⟨c, List.mem_of_getElem? hc, hmark c hm⟩⟩
  · cases h

theorem opens_of_quoted (h : IsLongest (x.text.toList ++ rest) x.kind x.text.toList.length)
    (hq : x.quoted = true) (hb : x.text.toList.any Text.isBlank = true) :
    ∃ o b, Opens x.text.toList o b := by
  obtain ⟨r, hr, hk, ha⟩ := h.firstOf.exists_rule
  obtain ⟨c, hc, hblank⟩ := List.any_eq_true.1 hb
  obtain ⟨hkind, hmark⟩ := kind_of_quoted hq
  rcases ha.of_blank hr hc hblank with ho | ⟨hsingle, -⟩ | ⟨hbare, hcalm⟩
  · exact ho
  · rw [hk] at hsingle
    simp only [List.mem_cons, List.not_mem_nil, or_false] at hsingle hkind
    rcases hsingle with he | he <;> simp [he] at hkind
  · rw [hk] at hbare
    obtain ⟨d, hd, hn⟩ := hmark hbare
    rw [(hcalm d hd).1] at hn
    cases hn

/-- A text that has come to its end behind an opening ends with the mark that closes it. -/
theorem closer_of_getLast? {o : Opening} {b : List Char} {c : Char} (ho : Opens u o b)
    (hb : o.fence.read .inside b = .outside) (hc : u.getLast? = some c) :
    o.fence.closer = some c := by
  obtain ⟨p, -, rfl⟩ := ho
  rcases List.eq_nil_or_concat b with rfl | ⟨b, d, rfl⟩
  · cases hb
  · rw [List.concat_eq_append, Fence.read_append] at hb
    obtain rfl : d = c := by simpa using hc
    exact Fence.step_eq_outside hb

theorem isBlank_of_getLast?_closed {o : Opening} {b : List Char} {c : Char} (ho : Opens u o b)
    (hb : o.fence.read .inside b = .outside) (hc : u.getLast? = some c) :
    Text.isBlank c = false := by
  have hcloser := closer_of_getLast? ho hb hc
  have hsober := ho.sober
  generalize o.fence = f at hcloser hsober
  cases f with
  | quote q =>
    obtain rfl := Option.some.inj hcloser
    exact hsober q rfl
  | bracket | block =>
    obtain rfl := Option.some.inj hcloser
    rfl
  | line => cases hcloser

theorem trimmed_of_opens {o : Opening} {b : List Char} (h : IsLongest (u ++ rest) k u.length)
    (hk : k ≠ .lineComment) (ho : Opens u o b) : Text.Trimmed u := by
  obtain ⟨r, hr, hkind, ha⟩ := h.firstOf.exists_rule
  have hhead : ∀ c, u.head? = some c → Text.isBlank c = false := by
    obtain ⟨p, hp, rfl⟩ := ho
    obtain ⟨hne, hno⟩ := opening_no_blank hp
    obtain ⟨d, p, rfl⟩ := List.exists_cons_of_ne_nil hne
    intro c hc
    obtain rfl : d = c := by simpa using hc
    exact hno d List.mem_cons_self
  refine ⟨hhead, fun c hc ↦ ?_⟩
  by_cases hlen : u.length = 1
  · obtain ⟨d, rfl⟩ := List.length_eq_one_iff.1 hlen
    exact hhead c hc
  · obtain ⟨hok, hline | hread⟩ := ha.of_opens hr ho hlen
    · rw [ho.line_iff, ← hok, hkind] at hline
      exact absurd hline hk
    · exact isBlank_of_getLast?_closed ho hread hc

theorem isBlank_eq_false_of_any (h : ¬u.any Text.isBlank = true) :
    ∀ c ∈ u, Text.isBlank c = false := by
  intro c hc
  rw [Bool.eq_false_iff]
  intro hblank
  exact h (List.any_eq_true.2 ⟨c, hc, hblank⟩)

theorem isLongest_of_mem_scan (hx : x ∈ Token.scan sql) (heof : x.kind ≠ .eof) :
    ∃ rest, IsLongest (x.text.toList ++ rest) x.kind x.text.toList.length :=
  (Token.inOrder_scanFrom _ _).isLongest hx heof

theorem text_of_eof (hx : x ∈ Token.scan sql) (heof : x.kind = .eof) : x.text = "<EOF>" := by
  obtain ⟨ts, hscan, hts, -⟩ := Token.exists_scanFrom_eq {} sql.toList
  rw [Token.scan, hscan, List.mem_append, List.mem_singleton] at hx
  rcases hx with hx | rfl
  · exact absurd heof (hts x hx)
  · rfl

theorem Unbroken.trimmed (h : Unbroken sql) (hx : x ∈ Token.scan sql) (hk : x.kind ≠ .blank) :
    Text.Trimmed x.text.toList := by
  by_cases heof : x.kind = .eof
  · rw [text_of_eof hx heof]
    exact .of_no_blank (isBlank_eq_false_of_any (by decide))
  · by_cases hb : x.text.toList.any Text.isBlank = true
    · obtain ⟨rest, hlong⟩ := isLongest_of_mem_scan hx heof
      obtain ⟨o, b, ho⟩ := opens_of_quoted hlong (h.quoted x hx hk hb) hb
      exact trimmed_of_opens hlong (h.comments x hx).1 ho
    · exact .of_no_blank (isBlank_eq_false_of_any hb)

/-- A token that holds white space only behind an opening is the same in one line. -/
theorem longest_squeeze (h : IsLongest (u ++ rest) k u.length) (hk : k ≠ .lineComment)
    (hu : u.all Text.isBlank = false) (ho : u.any Text.isBlank = true → ∃ o b, Opens u o b)
    (hf : Follows tail rest) :
    longest (Text.squeeze u ++ tail) = (k, (Text.squeeze u).length) := by
  cases h.rewritten hu with
  | line hl _ => exact absurd hl hk
  | same _ hlong => exact hlong tail hf
  | bare _ hcalm =>
    have hno : ¬∃ o b, Opens u o b := by
      rintro ⟨o, b, hopens⟩
      exact not_opens_of_calm hcalm hopens.squeeze
    have hs : Text.squeeze u = u :=
      Text.squeeze_of_no_blank (isBlank_eq_false_of_any (mt ho hno))
    rw [hs]
    exact longest_of_not_opens h hno hf.ends

end Words

/-- Kind and text of each token, with the mark of the end. -/
def lexemes (cs : List Char) : List (Kind × List Char) :=
  (Token.scanFrom {} cs).map fun x ↦ (x.kind, x.text.toList)

section Lexemes

variable {z tail : List Char} {k : Kind}

theorem map_lexeme_scanFrom (p q : Cursor) (cs : List Char) :
    (Token.scanFrom p cs).map (fun x ↦ (x.kind, x.text.toList)) =
      (Token.scanFrom q cs).map fun x ↦ (x.kind, x.text.toList) := by
  fun_induction Token.scanFrom p cs generalizing q with
  | case1 p =>
    rw [Token.scanFrom]
    rfl
  | case2 p c cs found text ih =>
    rw [Token.scanFrom, List.map_cons, List.map_cons, ih]

theorem lexemes_nil : lexemes [] = [(.eof, "<EOF>".toList)] := by
  rw [lexemes, Token.scanFrom]
  rfl

theorem lexemes_append (hz : z ≠ []) (h : longest (z ++ tail) = (k, z.length)) :
    lexemes (z ++ tail) = (k, z) :: lexemes tail := by
  obtain ⟨c, z, rfl⟩ := List.exists_cons_of_ne_nil hz
  have hrest : ((c :: z) ++ tail).drop (longest ((c :: z) ++ tail)).2 = tail := by
    rw [h, List.drop_left]
  have htext : ((c :: z) ++ tail).take (longest ((c :: z) ++ tail)).2 = c :: z := by
    rw [h, List.take_left]
  rw [lexemes, List.cons_append, Token.scanFrom, List.map_cons, map_lexeme_scanFrom _ {},
    ← List.cons_append, hrest, htext, h, String.toList_ofList]
  rfl

theorem lexemes_space (cs : List Char) : lexemes (' ' :: cs) = (.blank, [' ']) :: lexemes cs :=
  lexemes_append (z := [' ']) (List.cons_ne_nil _ _) (longest_space_cons cs)

theorem lexemes_behind (ws : List (List Char)) :
    (lexemes (behind ws)).filter (·.1 != .blank) =
      (lexemes (Text.unwords ws)).filter (·.1 != .blank) := by
  cases ws with
  | nil => rfl
  | cons w ws =>
    rw [behind, lexemes_space]
    rfl

/-- The words of tokens that keep their white space behind openings are read as these tokens. -/
theorem lexemes_unwords {xs : List Token} (hx : InOrder xs)
    (hk : ∀ x ∈ xs, x.kind ∉ [.eof, .blank, .lineComment])
    (hu : ∀ x ∈ xs, x.text.toList.all Text.isBlank = false)
    (ho : ∀ x ∈ xs, x.text.toList.any Text.isBlank = true → ∃ o b, Opens x.text.toList o b) :
    (lexemes (Text.unwords (xs.map Token.word))).filter (·.1 != .blank) =
      xs.map (fun x ↦ (x.kind, x.word)) ++ [(.eof, "<EOF>".toList)] := by
  induction xs with
  | nil =>
    rw [List.map_nil, Text.unwords, List.intercalate_nil, lexemes_nil]
    rfl
  | cons x xs ih =>
    rw [List.forall_mem_cons] at hk hu ho
    simp only [List.mem_cons, List.not_mem_nil, or_false, not_or] at hk
    obtain ⟨⟨heof, hblank, hline⟩, hks⟩ := hk
    obtain ⟨rest, hlong, hrest, hxs⟩ := hx.of_cons.resolve_left fun he ↦ heof he.1
    have hword : longest (x.word ++ behind (xs.map Token.word)) = (x.kind, x.word.length) :=
      longest_squeeze hlong hline hu.1 ho.1 (follows_behind hrest)
    have hne : x.word ≠ [] := squeeze_ne_nil hu.1
    have hsolid : (x.kind != .blank) = true := bne_iff_ne.2 hblank
    rw [List.map_cons, unwords_cons, lexemes_append hne hword,
      List.filter_cons_of_pos (p := fun y : Kind × List Char ↦ y.1 != .blank) hsolid,
      lexemes_behind, ih hxs (by simpa using hks) hu.2 ho.2,
      List.map_cons, List.cons_append]

end Lexemes

section Solid

variable {sql q : String}

theorem map_solid {α : Type} (f : Token → α) (sql : String) :
    (Token.solid sql).map (fun x ↦ f x.1) =
      ((Token.scan sql).filter (·.kind != .blank)).map f := by
  have hfst := List.zipIdx_map_fst 0 (Token.scan sql)
  rw [Token.solid, ← hfst, List.filter_map, List.map_map, hfst]
  rfl

/-- The tokens of a text other than blanks and the mark of the end. -/
def Token.written (sql : String) : List Token :=
  (scan sql).filter fun x ↦ x.kind != .blank && x.kind != .eof

theorem Token.map_fst_solid (sql : String) :
    ((solid sql).filter fun x ↦ x.1.kind != .eof).map Prod.fst = written sql := by
  have hfst := List.filter_map (f := Prod.fst)
    (p := fun x : Token ↦ x.kind != .blank && x.kind != .eof) (l := (scan sql).zipIdx)
  rw [List.zipIdx_map_fst] at hfst
  rw [written, hfst, solid, List.filter_filter]
  exact congrArg _ (List.filter_congr fun x _ ↦ Bool.and_comm _ _)

theorem Token.solid_eq_written (sql : String) :
    ∃ x : Token, (scan sql).filter (·.kind != .blank) = written sql ++ [x] ∧ x.kind = .eof ∧
      x.text = "<EOF>" := by
  obtain ⟨ts, hscan, hts, -⟩ := exists_scanFrom_eq {} sql.toList
  refine ⟨endMark (Cursor.past {} sql.toList), ?_, rfl, rfl⟩
  have hfilter : (ts.filter fun x ↦ x.kind != .blank && x.kind != .eof) =
      ts.filter (·.kind != .blank) := by
    apply List.filter_congr
    intro x hx
    rw [bne_iff_ne.2 (hts x hx), Bool.and_true]
  have hscan : scan sql = ts ++ [endMark (Cursor.past {} sql.toList)] := hscan
  rw [written, hscan, List.filter_append, List.filter_append, hfilter]
  simp [endMark]

theorem Unbroken.lexemes_written (h : Unbroken sql) :
    (lexemes (Text.unwords ((Token.written sql).map Token.word))).filter (·.1 != .blank) =
      (Token.written sql).map (fun x ↦ (x.kind, x.word)) ++ [(.eof, "<EOF>".toList)] := by
  have hmem : ∀ x ∈ Token.written sql, x ∈ Token.scan sql ∧ x.kind ≠ .blank ∧ x.kind ≠ .eof := by
    intro x hx
    simpa [Token.written] using hx
  apply lexemes_unwords
  · exact (Token.inOrder_scanFrom _ _).sublist List.filter_sublist
  · intro x hx hk
    obtain ⟨hscan, hblank, heof⟩ := hmem x hx
    have hline := (h.comments x hscan).1
    simp [hblank, heof, hline] at hk
  · intro x hx
    obtain ⟨hscan, hblank, heof⟩ := hmem x hx
    obtain ⟨rest, hlong⟩ := isLongest_of_mem_scan hscan heof
    exact (h.trimmed hscan hblank).all_isBlank (List.length_pos_iff.1 hlong.pos)
  · intro x hx hb
    obtain ⟨hscan, hblank, heof⟩ := hmem x hx
    obtain ⟨rest, hlong⟩ := isLongest_of_mem_scan hscan heof
    exact opens_of_quoted hlong (h.quoted x hscan hblank hb) hb

/-- In one line, a text has the same tokens. -/
theorem Unbroken.solid_eq (h : Unbroken sql)
    (hq : q.toList = Text.unwords ((Token.written sql).map Token.word)) :
    (Token.solid q).map (fun x ↦ (x.1.kind, x.1.text.toList)) =
      (Token.solid sql).map fun x ↦ (x.1.kind, x.1.word) := by
  obtain ⟨e, hsolid, hk, ht⟩ := Token.solid_eq_written sql
  have hread : (Token.solid q).map (fun x ↦ (x.1.kind, x.1.text.toList)) =
      (lexemes q.toList).filter (·.1 != .blank) := by
    rw [map_solid fun x : Token ↦ (x.kind, x.text.toList), lexemes, List.filter_map]
    rfl
  have hend : e.word = "<EOF>".toList := by
    rw [Token.word, ht]
    decide
  rw [hread, hq, h.lexemes_written, map_solid fun x : Token ↦ (x.kind, x.word), hsolid,
    List.map_append, List.map_singleton, hk, hend]

end Solid

end PlanCache
