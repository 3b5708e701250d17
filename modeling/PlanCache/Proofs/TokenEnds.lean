import PlanCache.Proofs.Fences

/-!
Which rules take a text with an opening, and which take a text with white space in it. Behind an
opening only the rule of its kind is left; a text without one that holds white space is a single
character or a bare name.
-/

namespace PlanCache

namespace Text

theorem isBlank_toLower (c : Char) : isBlank c.toLower = isBlank c := by
  have hl := toNat_toLower c
  split at hl
  · unfold isBlank
    rw [hl, Bool.eq_iff_iff]
    simp only [Bool.or_eq_true, Bool.and_eq_true, decide_eq_true_eq, beq_iff_eq]
    omega
  · rw [Char.toNat_inj.1 hl]

end Text

namespace LexRule

open Regex Opening

variable {r r' : LexRule} {rs ls : List LexRule} {before text rest rest' b s : List Char}
  {o : Opening} {k : Kind} {c : Char}

section Kinds

theorem eq_of_mem_fixed (hr : r ∈ fixed) :
    ∃ w, r.kind.spelling = some w ∧ r = { kind := r.kind, text := word w } := by
  obtain ⟨k, -, h⟩ := List.mem_filterMap.1 hr
  obtain ⟨w, hw, rfl⟩ := Option.map_eq_some_iff.1 h
  exact ⟨w, hw, rfl⟩

theorem eq_of_kind_eq (hr : r ∈ all) (hr' : r' ∈ all) (h : r.kind = r'.kind) : r = r' := by
  rcases List.mem_append.1 hr with hf | hm <;> rcases List.mem_append.1 hr' with hf' | hm'
  · obtain ⟨w, hw, he⟩ := eq_of_mem_fixed hf
    obtain ⟨w', hw', he'⟩ := eq_of_mem_fixed hf'
    rw [h, hw'] at hw
    rw [he, he', h, Option.some.inj hw]
  · refine absurd ?_ (spelling_of_mem_fixed hf)
    rw [h]
    simp only [List.mem_cons, List.not_mem_nil, or_false] at hm'
    rcases hm' with rfl | rfl | rfl | rfl | rfl | rfl | rfl | rfl | rfl <;> rfl
  · refine absurd ?_ (spelling_of_mem_fixed hf')
    rw [← h]
    simp only [List.mem_cons, List.not_mem_nil, or_false] at hm
    rcases hm with rfl | rfl | rfl | rfl | rfl | rfl | rfl | rfl | rfl <;> rfl
  · simp only [List.mem_cons, List.not_mem_nil, or_false] at hm hm'
    rcases hm with rfl | rfl | rfl | rfl | rfl | rfl | rfl | rfl | rfl <;>
      rcases hm' with rfl | rfl | rfl | rfl | rfl | rfl | rfl | rfl | rfl <;>
      first | rfl | cases h

theorem identifier_mem_all : { kind := .identifier, text := identifier : LexRule } ∈ all :=
  List.mem_append_right _ (by simp)

theorem number_mem_all : { kind := .number, text := number : LexRule } ∈ all :=
  List.mem_append_right _ (by simp)

theorem parameter_mem_all : { kind := .parameter, text := parameter : LexRule } ∈ all :=
  List.mem_append_right _ (by simp)

theorem string_mem_all : { kind := .string, text := string : LexRule } ∈ all :=
  List.mem_append_right _ (by simp)

theorem blob_mem_all : { kind := .blob, text := .seq (letter 'x') string : LexRule } ∈ all :=
  List.mem_append_right _ (by simp)

theorem blockComment_mem_all :
    { kind := .blockComment, text := blockComment : LexRule } ∈ all :=
  List.mem_append_right _ (by simp)

theorem lineComment_mem_all :
    { kind := .lineComment, text := .seq lineStart (.seq (opt (just '\r')) (just '\n')),
      atEnd := lineStart : LexRule } ∈ all :=
  List.mem_append_right _ (by simp)

theorem blank_mem_all :
    { kind := .blank, text := anyOf [' ', '\x0b', '\t', '\r', '\n'] : LexRule } ∈ all :=
  List.mem_append_right _ (by simp)

/-- A rule that does not look for the end takes what its kind says. -/
theorem Accepts.matches (ha : r.Accepts text rest) (hr : r ∈ all) (hr' : r' ∈ all)
    (hk : r.kind = r'.kind) (he : r'.atEnd = .never) : Matches r'.text text := by
  obtain rfl := eq_of_kind_eq hr hr' hk
  rcases ha with hm | ⟨-, hm⟩
  · exact hm
  · rw [he] at hm
    exact absurd hm not_matches_never

end Kinds

section Openings

/-- The rules that can take a text that begins with `p`, as far as they are then left. -/
def survivors (p : List Char) : List LexRule := p.foldl (fun rs c ↦ rs.filterMap (after c)) all

theorem Left.fold (p : List Char) (h : Left before rs ls) :
    Left (before ++ p) rs (p.foldl (fun rs c ↦ rs.filterMap (LexRule.after c)) ls) := by
  induction p generalizing before ls with
  | nil => rwa [List.append_nil]
  | cons c p ih =>
    have hc := ih (h.after c)
    rwa [List.append_assoc] at hc

theorem Left.exists_kind (h : Left before rs ls) (hr : r ∈ rs) (ha : r.Accepts (before ++ s) rest) :
    ∃ left ∈ ls, left.kind = r.kind := by
  induction h with
  | nil => cases hr
  | keep hk _ ih =>
    rcases List.mem_cons.1 hr with rfl | hr
    · exact ⟨_, List.mem_cons_self, hk.kind⟩
    · obtain ⟨left, hl, he⟩ := ih hr
      exact ⟨left, List.mem_cons_of_mem _ hl, he⟩
  | drop hd _ ih =>
    rcases List.mem_cons.1 hr with rfl | hr
    · rcases ha with hm | ⟨-, hm⟩
      · exact absurd hm (hd s).1
      · exact absurd hm (hd s).2
    · exact ih hr

/-- Behind an opening only the rule of its kind is left, and the one for single characters. -/
theorem survivors_openings : openings.all (fun x ↦ (survivors x.1).all fun r ↦
    r.kind = x.2.kind || r.kind = .stray) = true := by
  decide +kernel

theorem Accepts.kind_of_opens (ha : r.Accepts text rest) (hr : r ∈ all) (ho : Opens text o b) :
    r.kind = o.kind ∨ r.kind = .stray := by
  obtain ⟨p, hp, rfl⟩ := ho
  obtain ⟨left, hl, hk⟩ := (left_all.fold p).exists_kind hr ha
  have hall := List.all_eq_true.1 (List.all_eq_true.1 survivors_openings _ hp) left hl
  rw [← hk]
  simpa using hall

/-- No rule takes the empty text. -/
theorem Accepts.ne_nil (ha : r.Accepts text rest) (hr : r ∈ all) : text ≠ [] := by
  have hall : all.all (fun r ↦ !r.text.nullable && !r.atEnd.nullable) = true := by decide +kernel
  have hnone := List.all_eq_true.1 hall r hr
  rw [Bool.and_eq_true, Bool.not_eq_true', Bool.not_eq_true'] at hnone
  rintro rfl
  rcases ha with hm | ⟨-, hm⟩
  · rw [matches_nil, hnone.1] at hm
    cases hm
  · rw [matches_nil, hnone.2] at hm
    cases hm

theorem Accepts.length_of_stray (ha : r.Accepts text rest) (hr : r ∈ all) (hk : r.kind = .stray) :
    text.length = 1 := by
  obtain ⟨c, -, rfl⟩ := matches_char.1 (ha.matches hr stray_mem_all hk rfl)
  rfl

theorem names_unique {x y : Char × Fence} (hx : x ∈ names) (hy : y ∈ names) (h : x.1 = y.1) :
    x = y := by
  simp only [names, List.mem_cons, List.not_mem_nil, or_false] at hx hy
  rcases hx with rfl | rfl | rfl <;> rcases hy with rfl | rfl | rfl <;> simp_all

theorem not_startsName_of_names {x : Char × Fence} (hx : x ∈ names) : startsName x.1 = false := by
  simp only [names, List.mem_cons, List.not_mem_nil, or_false] at hx
  rcases hx with rfl | rfl | rfl <;> rfl

theorem read_of_matches_identifier {x : Char × Fence} (hx : x ∈ names)
    (h : Matches identifier (x.1 :: b)) : x.2.read .inside b = .outside := by
  rcases matches_identifier.1 h with ⟨y, hy, b', he, hb⟩ | ⟨c, cs, he, hc, -⟩
  · obtain ⟨h₁, rfl⟩ := List.cons.inj he
    rw [names_unique hx hy h₁]
    exact hb
  · rw [← (List.cons.inj he).1, not_startsName_of_names hx] at hc
    cases hc

/-- A text behind an opening is taken as a token only if it comes to its end there, but for a single
character and a comment to the end of the line. -/
theorem Accepts.of_opens (ha : r.Accepts text rest) (hr : r ∈ all) (ho : Opens text o b)
    (hlen : text.length ≠ 1) :
    r.kind = o.kind ∧ (o.fence = .line ∨ o.fence.read .inside b = .outside) := by
  have hk : r.kind = o.kind := by
    rcases ha.kind_of_opens hr ho with hk | hk
    · exact hk
    · exact absurd (ha.length_of_stray hr hk) hlen
  refine ⟨hk, ?_⟩
  rcases opens_iff.1 ho with ⟨x, hx, rfl, rfl⟩ | ⟨c, hc, x, hx, rfl, rfl⟩ | ⟨rfl, rfl⟩ |
    ⟨c, hc, rfl, rfl⟩ | ⟨rfl, rfl⟩ | ⟨rfl, rfl⟩
  · exact .inr (read_of_matches_identifier hx (ha.matches hr identifier_mem_all hk rfl))
  · rcases matches_parameter.1 (ha.matches hr parameter_mem_all hk rfl) with
      ⟨ds, he, -⟩ | ⟨c', -, t, he, ht⟩
    · rw [(List.cons.inj he).1] at hc
      exact absurd hc (by decide)
    · rw [← (List.cons.inj he).2] at ht
      exact .inr (read_of_matches_identifier hx ht)
  · obtain ⟨b', he, hb⟩ := matches_enclosed.1 (ha.matches hr string_mem_all hk rfl)
    rw [(List.cons.inj he).2]
    exact .inr hb
  · obtain ⟨c', -, b', he, hb⟩ := matches_blob.1 (ha.matches hr blob_mem_all hk rfl)
    simp only [List.cons.injEq, true_and] at he
    rw [he.2]
    exact .inr hb
  · exact .inl rfl
  · obtain ⟨b', he, hb⟩ := matches_blockComment.1 (ha.matches hr blockComment_mem_all hk rfl)
    simp only [List.cons.injEq, true_and] at he
    rw [he]
    exact .inr hb

/-- A text that has come to its end behind an opening is taken. -/
theorem exists_accepts_of_closed (ho : Opens text o b) (hb : o.fence.read .inside b = .outside)
    (rest : List Char) : ∃ r ∈ all, r.Accepts text rest := by
  rcases opens_iff.1 ho with ⟨x, hx, rfl, rfl⟩ | ⟨c, hc, x, hx, rfl, rfl⟩ | ⟨rfl, rfl⟩ |
    ⟨c, hc, rfl, rfl⟩ | ⟨rfl, rfl⟩ | ⟨rfl, rfl⟩
  · exact ⟨_, identifier_mem_all, .inl (matches_identifier.2 (.inl ⟨x, hx, b, rfl, hb⟩))⟩
  · have hm : Matches identifier (x.1 :: b) := matches_identifier.2 (.inl ⟨x, hx, b, rfl, hb⟩)
    exact ⟨_, parameter_mem_all, .inl (matches_parameter.2 (.inr ⟨c, hc, _, rfl, hm⟩))⟩
  · exact ⟨_, string_mem_all, .inl (matches_enclosed.2 ⟨b, rfl, hb⟩)⟩
  · exact ⟨_, blob_mem_all, .inl (matches_blob.2 ⟨c, hc, b, rfl, hb⟩)⟩
  · obtain ⟨d, -, hd⟩ := Fence.closer_mem hb (by decide)
    cases hd
  · exact ⟨_, blockComment_mem_all, .inl (matches_blockComment.2 ⟨b, rfl, hb⟩)⟩

theorem firstOf_of_kind (h : ∃ r ∈ rs, r.Accepts text rest)
    (hk : ∀ r ∈ rs, r.Accepts text rest → r.kind = k) : FirstOf rs text rest k := by
  induction rs with
  | nil =>
    obtain ⟨r, hr, -⟩ := h
    cases hr
  | cons r rs ih =>
    rw [List.forall_mem_cons] at hk
    by_cases ha : r.Accepts text rest
    · exact ⟨[], r, rs, rfl, hk.1 ha, ha, nofun⟩
    · obtain ⟨r', hr', ha'⟩ := h
      rcases List.mem_cons.1 hr' with rfl | hr'
      · exact absurd ha' ha
      · obtain ⟨pre, x, post, rfl, hx, hxa, hn⟩ := ih ⟨r', hr', ha'⟩ hk.2
        exact ⟨r :: pre, x, post, rfl, hx, hxa, List.forall_mem_cons.2 ⟨ha, hn⟩⟩

end Openings

section Blanks

/-- Only a comment to the end of the line looks for the end of the input. -/
theorem Accepts.rest_irrel (ha : r.Accepts text rest) (hr : r ∈ all) (hk : r.kind ≠ .lineComment)
    (rest' : List Char) : r.Accepts text rest' := by
  rcases ha with hm | ⟨-, hm⟩
  · exact .inl hm
  · have hnever : r.atEnd = .never := by
      rcases List.mem_append.1 hr with hf | hm'
      · obtain ⟨w, -, he⟩ := eq_of_mem_fixed hf
        rw [he]
      · simp only [List.mem_cons, List.not_mem_nil, or_false] at hm'
        rcases hm' with rfl | rfl | rfl | rfl | rfl | rfl | rfl | rfl | rfl <;>
          first | rfl | exact absurd rfl hk
    rw [hnever] at hm
    exact absurd hm not_matches_never

theorem opens_of_lineStart (h : Matches lineStart text) (s : List Char) :
    ∃ b, Opens (text ++ s) ⟨.line, .lineComment⟩ b := by
  obtain ⟨u, v, hu, hv, rfl⟩ := matches_all_cons.1 h
  obtain ⟨u', v, hu', -, rfl⟩ := matches_all_cons.1 hv
  rw [matches_just.1 hu, matches_just.1 hu']
  exact ⟨v ++ s, opens_iff.2 (by simp)⟩

theorem Accepts.opens_of_lineComment (ha : r.Accepts text rest) (hr : r ∈ all)
    (hk : r.kind = .lineComment) : ∃ b, Opens text ⟨.line, .lineComment⟩ b := by
  obtain rfl := eq_of_kind_eq hr lineComment_mem_all hk
  rcases ha with hm | ⟨-, hm⟩
  · obtain ⟨u, v, hu, -, rfl⟩ := matches_seq.1 hm
    exact opens_of_lineStart hu v
  · have ho := opens_of_lineStart hm []
    rwa [List.append_nil] at ho

theorem not_isBlank_of_fixed (hr : r ∈ fixed) (ha : r.Accepts text rest) :
    ∀ c ∈ text, Text.isBlank c = false := by
  obtain ⟨k, hk, h⟩ := List.mem_filterMap.1 hr
  obtain ⟨w, hw, rfl⟩ := Option.map_eq_some_iff.1 h
  have hplain : Kind.all.all (fun k ↦
      k.spelling.all fun w ↦ w.toList.all fun c ↦ !Text.isBlank c) = true := by
    decide +kernel
  have hw' := List.all_eq_true.1 hplain k hk
  rw [hw] at hw'
  have hm : text.map Char.toLower = w.toList.map Char.toLower := by
    rcases ha with hm | ⟨-, hm⟩
    · exact matches_word.1 hm
    · exact absurd hm not_matches_never
  intro c hc
  have hmem : c.toLower ∈ w.toList.map Char.toLower := by
    rw [← hm]
    exact List.mem_map_of_mem hc
  obtain ⟨d, hd, he⟩ := List.mem_map.1 hmem
  have hblank := List.all_eq_true.1 hw' d hd
  rw [← Text.isBlank_toLower, he, Text.isBlank_toLower] at hblank
  simpa using hblank

theorem not_isBlank_of_number (h : Matches number text) :
    ∀ c ∈ text, Text.isBlank c = false := by
  have havoids : Text.blanks.all (fun n ↦ number.avoids (Char.ofNat n)) = true := by decide
  intro c hc
  rw [Bool.eq_false_iff]
  intro hb
  have hn := List.all_eq_true.1 havoids _ (Text.mem_blanks hb)
  rw [Char.ofNat_toNat] at hn
  exact h.not_mem_of_avoids hn hc

/-- Whether a character can stand in a name or a parameter that is not quoted. -/
def isBare (c : Char) : Bool := continuesName c || [':', '@', '$', '?'].contains c

theorem isBare_of_name {d : Char} {cs : List Char} (hd : startsName d = true)
    (hcs : ∀ e ∈ cs, continuesName e = true) : ∀ e ∈ d :: cs, isBare e = true := by
  intro e he
  rw [isBare, Bool.or_eq_true]
  rcases List.mem_cons.1 he with rfl | he
  · exact .inl (continuesName_of_startsName hd)
  · exact .inl (hcs e he)

theorem isCalm_of_isBare (h : isBare c = true) : isCalm c = true ∧ c ≠ ' ' := by
  rw [isBare, Bool.or_eq_true] at h
  rcases h with h | h
  · exact isCalm_of_continuesName h
  · simp only [List.contains_cons, List.contains_nil, Bool.or_false, Bool.or_eq_true,
      beq_iff_eq] at h
    rcases h with rfl | rfl | rfl | rfl <;> decide

/-- A text that is taken has an opening, or it is a fixed word, a number, a single character or bare
of quotation marks. -/
theorem Accepts.opens_or (ha : r.Accepts text rest) (hr : r ∈ all) :
    (∃ o b, Opens text o b) ∨ r ∈ fixed ∨ Matches number text ∨
      (r.kind ∈ [.blank, .stray] ∧ text.length = 1) ∨
      (r.kind ∈ [.identifier, .parameter] ∧ ∀ d ∈ text, isBare d = true) := by
  rcases List.mem_append.1 hr with hf | hm
  · exact .inr (.inl hf)
  have hsingle : ∀ {test : Char → Bool}, Matches (.char test) text → text.length = 1 := by
    intro test h
    obtain ⟨d, -, rfl⟩ := matches_char.1 h
    rfl
  simp only [List.mem_cons, List.not_mem_nil, or_false] at hm
  rcases hm with rfl | rfl | rfl | rfl | rfl | rfl | rfl | rfl | rfl
  · rcases matches_identifier.1 (ha.matches hr hr rfl rfl) with
      ⟨x, hx, b, rfl, -⟩ | ⟨d, cs, rfl, hd, hcs⟩
    · exact .inl ⟨_, b, opens_iff.2 (.inl ⟨x, hx, rfl, rfl⟩)⟩
    · exact .inr (.inr (.inr (.inr ⟨by decide, isBare_of_name hd hcs⟩)))
  · exact .inr (.inr (.inl (ha.matches hr hr rfl rfl)))
  · rcases matches_parameter.1 (ha.matches hr hr rfl rfl) with
      ⟨ds, rfl, hds⟩ | ⟨m, hm, t, rfl, ht⟩
    · refine .inr (.inr (.inr (.inr ⟨by decide, List.forall_mem_cons.2 ⟨by decide, ?_⟩⟩)))
      intro d hd
      rw [isBare, continuesName_of_digit (hds d hd), Bool.true_or]
    · rcases matches_identifier.1 ht with ⟨x, hx, b, rfl, -⟩ | ⟨d, cs, rfl, hd, hcs⟩
      · exact .inl ⟨_, b, opens_iff.2 (.inr (.inl ⟨m, hm, x, hx, rfl, rfl⟩))⟩
      · refine .inr (.inr (.inr (.inr ⟨by decide, List.forall_mem_cons.2 ⟨?_, ?_⟩⟩)))
        · simp only [List.mem_cons, List.not_mem_nil, or_false] at hm
          rcases hm with rfl | rfl | rfl <;> decide
        · exact isBare_of_name hd hcs
  · obtain ⟨b, rfl, -⟩ := matches_enclosed.1 (ha.matches hr hr rfl rfl)
    exact .inl ⟨_, b, opens_iff.2 (.inr (.inr (.inl ⟨rfl, rfl⟩)))⟩
  · obtain ⟨d, hd, b, rfl, -⟩ := matches_blob.1 (ha.matches hr hr rfl rfl)
    exact .inl ⟨_, b, opens_iff.2 (.inr (.inr (.inr (.inl ⟨d, hd, rfl, rfl⟩))))⟩
  · obtain ⟨b, ho⟩ := ha.opens_of_lineComment hr rfl
    exact .inl ⟨_, b, ho⟩
  · obtain ⟨b, rfl, -⟩ := matches_blockComment.1 (ha.matches hr hr rfl rfl)
    exact .inl ⟨_, b, opens_iff.2 (.inr (.inr (.inr (.inr (.inr ⟨rfl, rfl⟩)))))⟩
  · exact .inr (.inr (.inr (.inl ⟨by decide, hsingle (ha.matches hr hr rfl rfl)⟩)))
  · exact .inr (.inr (.inr (.inl ⟨by decide, hsingle (ha.matches hr hr rfl rfl)⟩)))

/-- A text with white space in it that is taken has an opening, or it is a single character or a
bare name. -/
theorem Accepts.of_blank (ha : r.Accepts text rest) (hr : r ∈ all) (hc : c ∈ text)
    (hb : Text.isBlank c = true) :
    (∃ o b, Opens text o b) ∨ (r.kind ∈ [.blank, .stray] ∧ text = [c]) ∨
      (r.kind ∈ [.identifier, .parameter] ∧ ∀ d ∈ text, isCalm d = true ∧ d ≠ ' ') := by
  have no_blank : ¬∀ d ∈ text, Text.isBlank d = false := by
    intro h
    rw [h c hc] at hb
    cases hb
  rcases ha.opens_or hr with ho | hf | hnumber | ⟨hk, hlen⟩ | ⟨hk, hbare⟩
  · exact .inl ho
  · exact absurd (not_isBlank_of_fixed hf ha) no_blank
  · exact absurd (not_isBlank_of_number hnumber) no_blank
  · obtain ⟨d, rfl⟩ := List.length_eq_one_iff.1 hlen
    exact .inr (.inl ⟨hk, by rw [List.mem_singleton.1 hc]⟩)
  · exact .inr (.inr ⟨hk, fun d hd ↦ isCalm_of_isBare (hbare d hd)⟩)

/-- A longer text with a space in it is taken only behind an opening. -/
theorem Accepts.opens_of_space (ha : r.Accepts text rest) (hr : r ∈ all) (hc : ' ' ∈ text)
    (hlen : text.length ≠ 1) : ∃ o b, Opens text o b := by
  rcases ha.of_blank hr hc rfl with ho | ⟨-, rfl⟩ | ⟨-, hcalm⟩
  · exact ho
  · exact absurd rfl hlen
  · exact absurd rfl (hcalm ' ' hc).2

end Blanks

end LexRule

end PlanCache
