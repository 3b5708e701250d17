import PlanCache.Proofs.TokenLanguages

/-!
Which token stands at a place of a text: the longest that is a text of any kind, as the first of its
kinds. A word at which a token begins is the token, a keyword exactly if it is spelled like one in
either case, and otherwise a name.
-/

namespace PlanCache

open LexRule

/-- The kinds that have one spelling, in capitals. -/
def Kind.isKeyword (k : Kind) : Bool :=
  k.spelling.any fun w ↦ w.toList.all fun c ↦ c.isUpper || c == '_'

section Letters

variable {c : Char}

theorem isUpper_iff : c.isUpper = true ↔ 0x41 ≤ c.toNat ∧ c.toNat ≤ 0x5a := by
  have h : c.isUpper = true ↔ 'A'.val ≤ c.val ∧ c.val ≤ 'Z'.val := decide_eq_true_iff
  exact h

theorem isLower_iff : c.isLower = true ↔ 0x61 ≤ c.toNat ∧ c.toNat ≤ 0x7a := by
  have h : c.isLower = (decide ('a'.val ≤ c.val) && decide (c.val ≤ 'z'.val)) := rfl
  rw [h, Bool.and_eq_true, decide_eq_true_eq, decide_eq_true_eq]
  exact Iff.rfl

theorem startsName_eq (c : Char) :
    startsName c = (c.isUpper || c.isLower || c == '_' || ('\x7f' ≤ c && c ≤ '\uffff')) := rfl

theorem startsName_iff : startsName c = true ↔
    (0x41 ≤ c.toNat ∧ c.toNat ≤ 0x5a) ∨ (0x61 ≤ c.toNat ∧ c.toNat ≤ 0x7a) ∨ c.toNat = 0x5f ∨
      (0x7f ≤ c.toNat ∧ c.toNat ≤ 0xffff) := by
  have hbar : c = '_' ↔ c.toNat = 0x5f := by
    rw [← Char.toNat_inj]
    rfl
  simp only [startsName_eq, Bool.or_eq_true, Bool.and_eq_true, decide_eq_true_eq, beq_iff_eq,
    isUpper_iff, isLower_iff, hbar, Char.le_def, or_assoc]
  exact Iff.rfl

theorem isDigit_iff : c.isDigit = true ↔ 0x30 ≤ c.toNat ∧ c.toNat ≤ 0x39 := by
  simp only [Char.isDigit, Bool.and_eq_true, decide_eq_true_eq, UInt32.le_iff_toNat_le, ge_iff_le]
  exact Iff.rfl

theorem startsName_toLower (c : Char) : startsName c.toLower = startsName c := by
  have hc := Text.toNat_toLower c
  rw [Bool.eq_iff_iff, startsName_iff, startsName_iff]
  split at hc <;> omega

theorem continuesName_toLower (c : Char) : continuesName c.toLower = continuesName c := by
  have hdigit : c.toLower.isDigit = c.isDigit := by
    have hc := Text.toNat_toLower c
    rw [Bool.eq_iff_iff, isDigit_iff, isDigit_iff]
    split at hc <;> omega
  rw [continuesName, continuesName, startsName_toLower, hdigit]

theorem not_startsName_of_digit (h : c.isDigit = true) : startsName c = false := by
  rw [Bool.eq_false_iff, ne_eq, startsName_iff]
  rw [isDigit_iff] at h
  omega

end Letters

section Order

variable {k k' : Kind} {s rest : List Char}

/-- The rules stand in the order of their kinds. -/
theorem sorted_kinds : (LexRule.all.map (·.kind.ctorIdx)).Pairwise (· < ·) := by
  rw [← List.isChain_iff_pairwise]
  decide +kernel

theorem LexRule.FirstOf.spells (h : FirstOf LexRule.all s rest k) : Spells k s rest := by
  obtain ⟨r, hr, rfl, ha⟩ := h.exists_rule
  exact .of_accepts hr ha

theorem LexRule.FirstOf.ctorIdx_le (h : FirstOf LexRule.all s rest k) (hs : Spells k' s rest) :
    k.ctorIdx ≤ k'.ctorIdx := by
  obtain ⟨before, r, after, hall, rfl, -, hnone⟩ := h
  obtain ⟨r', hr', rfl, ha'⟩ := hs.exists_rule
  have hsorted := sorted_kinds
  rw [hall] at hr' hsorted
  rw [List.map_append, List.map_cons, List.pairwise_append, List.pairwise_cons] at hsorted
  rcases List.mem_append.1 hr' with hm | hm
  · exact absurd ha' (hnone r' hm)
  · rcases List.mem_cons.1 hm with rfl | hm
    · exact Nat.le_refl _
    · exact Nat.le_of_lt (hsorted.2.1.1 _ (List.mem_map_of_mem hm))

theorem LexRule.IsLongest.not_spells {longer rest' : List Char}
    (h : IsLongest (s ++ rest) k s.length) (he : s ++ rest = longer ++ rest')
    (hlt : s.length < longer.length) : ¬Spells k' longer rest' := by
  intro hs
  obtain ⟨r, hr, -, ha⟩ := hs.exists_rule
  have hle : longer.length ≤ (s ++ rest).length := by
    rw [he, List.length_append]
    exact Nat.le_add_right _ _
  have hrefused := h.none_longer _ hlt hle
  rw [he, List.take_left, List.drop_left] at hrefused
  exact hrefused r hr ha

end Order

section Words

variable {k : Kind} {s t rest : List Char} {c d : Char} {w : String}

/-- A spelling in capitals is a name; any other does not begin like one. -/
theorem spelling_of_isKeyword (hw : k.spelling = some w) :
    (k.isKeyword = true → ∀ c ∈ w.toList, continuesName c.toLower = true) ∧
      (k.isKeyword = false → ∀ c, w.toList.head? = some c → startsName c.toLower = false) := by
  constructor
  · intro hkey c hc
    rw [Kind.isKeyword, hw, Option.any_some] at hkey
    have hcapital := List.all_eq_true.1 hkey c hc
    rw [continuesName_toLower]
    apply continuesName_of_startsName
    rw [Bool.or_eq_true, beq_iff_eq] at hcapital
    rcases hcapital with hupper | rfl
    · rw [startsName_eq, hupper]
      rfl
    · rfl
  · intro hkey c hc
    have hall : Kind.all.all (fun k ↦ k.isKeyword || k.spelling.all fun w ↦
        w.toList.head?.all (!startsName ·.toLower)) = true := by
      decide +kernel
    have hk := List.all_eq_true.1 hall k k.mem_all
    rw [hkey, Bool.false_or, hw, Option.all_some, hc] at hk
    simpa using hk

/-- A word that is spelled like a kind is spelled like a keyword, and is a name throughout. -/
theorem SpelledAs.isKeyword (hw : k.spelling = some w) (h : SpelledAs w (c :: s))
    (hc : startsName c = true) :
    k.isKeyword = true ∧ ∀ d ∈ c :: s, continuesName d = true := by
  obtain ⟨hname, hother⟩ := spelling_of_isKeyword hw
  have hkey : k.isKeyword = true := by
    cases hkey : k.isKeyword with
    | true => rfl
    | false =>
      obtain ⟨d, ds, hd, he, -⟩ := List.map_eq_cons_iff.1 h.symm
      have hno := hother hkey d (by rw [hd]; rfl)
      rw [he, startsName_toLower, hc] at hno
      cases hno
  refine ⟨hkey, fun d hd ↦ ?_⟩
  have hmem : d.toLower ∈ w.toList.map Char.toLower := by
    rw [← h]
    exact List.mem_map_of_mem hd
  obtain ⟨e, he, hlower⟩ := List.mem_map.1 hmem
  rw [← continuesName_toLower, ← hlower]
  exact hname hkey e he

theorem Numeral.head (h : Numeral s) : ∃ d u, s = d :: u ∧ startsName d = false := by
  have hdigits : ∀ {ds : List Char} (u), Digits ds →
      ∃ d v, ds ++ u = d :: v ∧ startsName d = false := by
    rintro ds u ⟨hne, hds⟩
    obtain ⟨d, ds, rfl⟩ := List.exists_cons_of_ne_nil hne
    exact ⟨d, ds ++ u, rfl, not_startsName_of_digit (hds d List.mem_cons_self)⟩
  cases h with
  | whole hds => exact hdigits _ hds
  | fraction hds =>
    rw [List.append_assoc]
    exact hdigits _ hds
  | places => exact ⟨_, _, rfl, rfl⟩
  | hexadecimal => exact ⟨_, _, rfl, rfl⟩

theorem not_startsName_of_mark (h : c ∈ ['"', '\x60'] ++ [':', '@', '$']) :
    ¬startsName c = true := by
  have hall : (['"', '\x60'] ++ [':', '@', '$']).all (!startsName ·) = true := by decide
  simpa using List.all_eq_true.1 hall c h

/-- A text that begins like a name is a bare name as a whole, or a blob. -/
theorem Spells.of_startsName (h : Spells k (c :: s) rest) (hc : startsName c = true)
    (hs : s ≠ []) :
    (∀ d ∈ s, continuesName d = true) ∨ k = .blob ∧ c ∈ ['x', 'X'] ∧ Quoted '\'' s := by
  generalize he : c :: s = t at h
  have hfirst : ∀ {d u}, t = d :: u → startsName d = true := by
    rintro d u rfl
    rw [← (List.cons.inj he).1]
    exact hc
  have hbare : BareName t → ∀ d ∈ s, continuesName d = true := by
    rintro ⟨d, u, rfl, -, hu⟩
    rw [(List.cons.inj he).2]
    exact hu
  cases h with
  | fixed hw hspelled =>
    rw [← he] at hspelled
    exact .inl (List.forall_mem_cons.1 (hspelled.isKeyword hw hc).2).2
  | name hn =>
    cases hn with
    | quoted hq hx =>
      obtain ⟨x, rfl⟩ := hx
      exact absurd (hfirst rfl) (not_startsName_of_mark (List.mem_append_left _ hq))
    | bracketed => cases hfirst rfl
    | bare hb => exact .inl (hbare hb)
  | number hn =>
    obtain ⟨d, u, rfl, hd⟩ := hn.head
    rw [hfirst rfl] at hd
    cases hd
  | numbered => cases hfirst rfl
  | named hm => exact absurd (hfirst rfl) (not_startsName_of_mark (List.mem_append_right _ hm))
  | string hx =>
    obtain ⟨x, rfl⟩ := hx
    cases hfirst rfl
  | blob hx hq =>
    obtain ⟨rfl, rfl⟩ := List.cons.inj he
    exact .inr ⟨rfl, hx, hq⟩
  | line => cases hfirst rfl
  | block => cases hfirst rfl
  | blank => exact absurd (List.cons.inj he).2 hs
  | stray => exact absurd (List.cons.inj he).2 hs

theorem ctorIdx_lt_of_spelling (hw : k.spelling = some w) :
    k.ctorIdx < Kind.identifier.ctorIdx := by
  have hall : Kind.all.all (fun k ↦ k.spelling.isNone ||
      decide (k.ctorIdx < Kind.identifier.ctorIdx)) = true := by
    decide +kernel
  have hk := List.all_eq_true.1 hall k k.mem_all
  rw [hw, Option.isNone_some, Bool.false_or, decide_eq_true_eq] at hk
  exact hk

theorem Spells.keyword_or_name (h : Spells k s rest) (hs : BareName s)
    (hle : k.ctorIdx ≤ Kind.identifier.ctorIdx) :
    (k.isKeyword = true ∧ ∃ w, k.spelling = some w ∧ SpelledAs w s) ∨ k = .identifier := by
  obtain ⟨c, cs, rfl, hc, -⟩ := hs
  generalize he : c :: cs = t at h
  cases h with
  | fixed hw hspelled =>
    have hword := hspelled
    rw [← he] at hword
    exact .inl ⟨(hword.isKeyword hw hc).1, _, hw, hspelled⟩
  | name => exact .inr rfl
  | _ => exact absurd hle (by decide)

/-- A text that is a bare name is a keyword if it is spelled like one, and otherwise a name. -/
theorem LexRule.FirstOf.isKeyword_iff (h : FirstOf LexRule.all s rest k) (hs : BareName s) :
    (k.isKeyword = true ↔
      ∃ (k' : Kind) (w : String), k'.isKeyword = true ∧ k'.spelling = some w ∧ SpelledAs w s) ∧
      (k.isKeyword = false → k = .identifier) := by
  have hname : k.ctorIdx ≤ Kind.identifier.ctorIdx := h.ctorIdx_le (.name (.bare hs))
  have hcases := h.spells.keyword_or_name hs hname
  refine ⟨⟨fun hkey ↦ ?_, ?_⟩, fun hkey ↦ ?_⟩
  · rcases hcases with ⟨-, w, hw, hspelled⟩ | rfl
    · exact ⟨k, w, hkey, hw, hspelled⟩
    · cases hkey
  · rintro ⟨k', w, -, hw, hspelled⟩
    have hle := h.ctorIdx_le (.fixed hw hspelled)
    rcases hcases with ⟨hkey, -⟩ | rfl
    · exact hkey
    · exact absurd (ctorIdx_lt_of_spelling hw) (Nat.not_lt.2 hle)
  · rcases hcases with ⟨hkey', -⟩ | hk
    · rw [hkey] at hkey'
      cases hkey'
    · exact hk

/-- The token at a word that no letter follows is the word, unless it is the letter before the
quotes of a blob. -/
theorem LexRule.IsLongest.word_or_blob {u v rest' : List Char}
    (h : IsLongest (u ++ rest) k u.length) (he : u ++ rest = v ++ rest') (hv : BareName v)
    (hend : ∀ c, rest'.head? = some c → continuesName c = false) :
    u = v ∨ k = .blob ∧ ∃ x ∈ ['x', 'X'], v = [x] ∧ ∃ b, Quoted '\'' b ∧ u = x :: b := by
  have hle : v.length ≤ u.length :=
    Nat.le_of_not_lt fun hlt ↦ h.not_spells he hlt (.name (.bare hv))
  rcases List.append_eq_append_iff.1 he with ⟨b, rfl, -⟩ | ⟨b, rfl, hrest⟩
  · rw [List.length_append] at hle
    obtain rfl : b = [] := List.length_eq_zero_iff.1 (by omega)
    exact .inl (List.append_nil _).symm
  · cases b with
    | nil => exact .inl (List.append_nil _)
    | cons d b =>
      obtain ⟨c, cs, rfl, hc, hcs⟩ := hv
      have hd : continuesName d = false := hend d (by rw [hrest]; rfl)
      rcases h.firstOf.spells.of_startsName hc (by simp) with hname | ⟨rfl, hx, x, hquoted⟩
      · rw [hname d (by simp)] at hd
        cases hd
      · cases cs with
        | nil => exact .inr ⟨rfl, c, hx, rfl, d :: b, ⟨x, hquoted⟩, rfl⟩
        | cons e cs =>
          have hmark := hcs e List.mem_cons_self
          rw [(List.cons.inj hquoted).1] at hmark
          cases hmark

end Words

theorem Token.isLongest_of_mem_scanFrom (p : Cursor) (rest before : List Char)
    (hp : p.offset = before.length) : ∀ t ∈ scanFrom p rest, t.kind ≠ .eof →
      ∃ after, (before ++ rest).drop t.start = t.text.toList ++ after ∧
        IsLongest (t.text.toList ++ after) t.kind t.text.toList.length := by
  fun_induction scanFrom p rest generalizing before with
  | case1 p =>
    intro t ht hk
    rw [List.mem_singleton.1 ht] at hk
    exact absurd rfl hk
  | case2 p c cs found text ih =>
    intro t ht hk
    have hlen : text.length = found.2 := length_longest c cs
    rcases List.mem_cons.1 ht with rfl | ht
    · have hlong := isLongest_longest c cs
      refine ⟨(c :: cs).drop found.2, ?_, ?_⟩
      · rw [String.toList_ofList, hp, List.drop_left, List.take_append_drop]
      · rw [String.toList_ofList, List.take_append_drop, hlen]
        exact hlong
    · have hnext : (p.past text).offset = (before ++ text).length := by
        rw [Cursor.offset_past, hp, List.length_append]
      have hrest := ih (before ++ text) hnext t ht hk
      rwa [List.append_assoc, List.take_append_drop] at hrest

/-- The text of a token is the longest at its place that is a text of some kind, and its kind is the
first of which it is a text. The token at a word is the word, as a keyword if it is spelled like one
in either case and otherwise as a name, but for the letter before the quotes of a blob. -/
theorem Token.kind_first_of_longest (sql : String) (t : Token) (ht : t ∈ scan sql)
    (hk : t.kind ≠ .eof) :
    ∃ rest, sql.toList.drop t.start = t.text.toList ++ rest ∧
      Spells t.kind t.text.toList rest ∧
      (∀ k, Spells k t.text.toList rest → t.kind.ctorIdx ≤ k.ctorIdx) ∧
      (∀ k longer rest', sql.toList.drop t.start = longer ++ rest' →
        t.text.toList.length < longer.length → ¬Spells k longer rest') ∧
      ∀ word rest', sql.toList.drop t.start = word ++ rest' → BareName word →
        (∀ c, rest'.head? = some c → continuesName c = false) →
        t.text.toList = word ∧
            (t.kind.isKeyword = true ↔ ∃ (k : Kind) (w : String), k.isKeyword = true ∧
              k.spelling = some w ∧ SpelledAs w word) ∧
            (t.kind.isKeyword = false → t.kind = .identifier) ∨
          t.kind = .blob ∧ ∃ x ∈ ['x', 'X'], word = [x] ∧
            ∃ b, Quoted '\'' b ∧ t.text.toList = x :: b := by
  obtain ⟨rest, hrest, hlong⟩ := isLongest_of_mem_scanFrom {} sql.toList [] rfl t ht hk
  rw [List.nil_append] at hrest
  refine ⟨rest, hrest, hlong.firstOf.spells, fun k hs ↦ hlong.firstOf.ctorIdx_le hs,
    fun k longer rest' he hlt ↦ ?_, fun word rest' he hword hend ↦ ?_⟩
  · exact hlong.not_spells (hrest.symm.trans he) hlt
  · rcases hlong.word_or_blob (hrest.symm.trans he) hword hend with heq | hblob
    · have hfirst := hlong.firstOf
      rw [heq] at hfirst
      exact .inl ⟨heq, hfirst.isKeyword_iff hword⟩
    · exact .inr hblob

/-- A hexadecimal number without digits falls back to the zero before it. -/
theorem Token.kind_first_of_longest_zero :
    (⟨.number, "0", 1, 0, 0, 1⟩ : Token) ∈ scan "0xg" ∧
      Spells .number ['0'] ['x', 'g'] ∧ ∀ k, ¬Spells k ['0', 'x'] ['g'] := by
  have hmem : (⟨.number, "0", 1, 0, 0, 1⟩ : Token) ∈ scan "0xg" := by decide +kernel
  obtain ⟨rest, hrest, hspells, -, hlonger, -⟩ :=
    kind_first_of_longest "0xg" _ hmem (by decide)
  obtain rfl : ['x', 'g'] = rest := (List.cons.inj hrest).2
  exact ⟨hmem, hspells, fun k ↦ hlonger k ['0', 'x'] ['g'] rfl (by decide)⟩

end PlanCache
