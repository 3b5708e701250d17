import PlanCache.Proofs.Positions
import PlanCache.Proofs.TokenEnds

/-!
The texts of each kind of token in plain words, and which of them stands at a place: the longest
that is a text of any kind, as the first of its kinds. So a word is a keyword exactly if it is
spelled like one, in either case, and otherwise a name.
-/

namespace PlanCache

open LexRule Regex

/-- A text is a word in either case of the Latin letters. -/
def SpelledAs (w : String) (s : List Char) : Prop := s.map Char.toLower = w.toList.map Char.toLower

/-- A text with each mark `q` written twice. -/
def doubled (q : Char) (x : List Char) : List Char :=
  x.flatMap fun c ↦ if c = q then [q, q] else [c]

/-- Two marks and between them a text with its marks doubled. -/
def Quoted (q : Char) (s : List Char) : Prop := ∃ x, s = q :: doubled q x ++ [q]

/-- A word that begins like a name and goes on like one. -/
def BareName (s : List Char) : Prop :=
  ∃ c cs, s = c :: cs ∧ startsName c = true ∧ ∀ d ∈ cs, continuesName d = true

/-- Names in quotes, in brackets, and bare ones. -/
inductive Name : List Char → Prop where
  | quoted {q : Char} {s : List Char} : q ∈ ['"', '\x60'] → Quoted q s → Name s
  | bracketed {x : List Char} : ']' ∉ x → Name ('[' :: x ++ [']'])
  | bare {s : List Char} : BareName s → Name s

/-- At least one digit and nothing else. -/
def Digits (s : List Char) : Prop := s ≠ [] ∧ ∀ c ∈ s, c.isDigit = true

def isHexDigit (c : Char) : Bool := c.isDigit || ('a' ≤ c && c ≤ 'f') || ('A' ≤ c && c ≤ 'F')

/-- Nothing, or the letter, a sign or none, and digits. -/
inductive Exponent : List Char → Prop where
  | none : Exponent []
  | digits {e : Char} {sign ds : List Char} : e ∈ ['e', 'E'] → sign ∈ [[], ['-'], ['+']] →
      Digits ds → Exponent (e :: sign ++ ds)

/-- Digits that a point and other digits, or none, may follow; digits behind a point; both before an
exponent; and hexadecimal digits. -/
inductive Numeral : List Char → Prop where
  | whole {ds e : List Char} : Digits ds → Exponent e → Numeral (ds ++ e)
  | fraction {ds ps e : List Char} : Digits ds → (∀ c ∈ ps, c.isDigit = true) → Exponent e →
      Numeral (ds ++ '.' :: ps ++ e)
  | places {ps e : List Char} : Digits ps → Exponent e → Numeral ('.' :: ps ++ e)
  | hexadecimal {x : Char} {ds : List Char} : x ∈ ['x', 'X'] → ds ≠ [] →
      (∀ c ∈ ds, isHexDigit c = true) → Numeral ('0' :: x :: ds)

/-- The texts of a kind of token before `rest`. -/
inductive Spells : Kind → List Char → List Char → Prop where
  | fixed {k : Kind} {w : String} {s rest : List Char} : k.spelling = some w → SpelledAs w s →
      Spells k s rest
  | name {s rest : List Char} : Name s → Spells .identifier s rest
  | number {s rest : List Char} : Numeral s → Spells .number s rest
  | numbered {ds rest : List Char} : (∀ c ∈ ds, c.isDigit = true) →
      Spells .parameter ('?' :: ds) rest
  | named {m : Char} {s rest : List Char} : m ∈ [':', '@', '$'] → Name s →
      Spells .parameter (m :: s) rest
  | string {s rest : List Char} : Quoted '\'' s → Spells .string s rest
  | blob {x : Char} {s rest : List Char} : x ∈ ['x', 'X'] → Quoted '\'' s →
      Spells .blob (x :: s) rest
  /-- A line behind two hyphens, with its end if it has one. -/
  | line {x stop rest : List Char} : (∀ c ∈ x, c ≠ '\r' ∧ c ≠ '\n') →
      stop = ['\n'] ∨ stop = ['\r', '\n'] ∨ stop = [] ∧ rest = [] →
      Spells .lineComment ('-' :: '-' :: x ++ stop) rest
  /-- From a slash and a star to the next star and slash. -/
  | block {x rest : List Char} : ¬['*', '/'] <:+: x ++ ['*'] →
      Spells .blockComment ('/' :: '*' :: x ++ ['*', '/']) rest
  | blank {c : Char} {rest : List Char} : c ∈ [' ', '\x0b', '\t', '\r', '\n'] →
      Spells .blank [c] rest
  | stray {c : Char} {rest : List Char} : Spells .stray [c] rest

namespace Regex

variable {q : Char} {s : List Char}

theorem matches_doubled : Matches (.star (.alt (noneOf [q]) (.seq (just q) (just q)))) s ↔
    ∃ x, s = doubled q x := by
  constructor
  · generalize hr : Regex.star (.alt (noneOf [q]) (.seq (just q) (just q))) = r
    intro h
    induction h with
    | stop => exact ⟨[], rfl⟩
    | @more a u v hu _ _ ih =>
      obtain rfl := Regex.star.inj hr
      obtain ⟨x, rfl⟩ := ih rfl
      rcases matches_alt.1 hu with hu | hu
      · obtain ⟨c, hc, rfl⟩ := matches_noneOf.1 hu
        have hne : c ≠ q := fun he ↦ hc (List.mem_singleton.2 he)
        exact ⟨c :: x, by simp [doubled, hne]⟩
      · obtain ⟨y, z, hy, hz, rfl⟩ := matches_seq.1 hu
        rw [matches_just.1 hy, matches_just.1 hz]
        exact ⟨q :: x, by simp [doubled]⟩
    | _ => cases hr
  · rintro ⟨x, rfl⟩
    induction x with
    | nil => exact .stop
    | cons c x ih =>
      rw [doubled, List.flatMap_cons]
      refine .more ?_ ih
      split
      · exact .right (.seq (s := [q]) (matches_just.2 rfl) (matches_just.2 rfl))
      · rename_i hc
        exact .left (matches_noneOf.2 ⟨c, by simpa using hc, rfl⟩)

theorem matches_enclosed_iff_quoted : Matches (enclosed q) s ↔ Quoted q s := by
  rw [enclosed, matches_all_cons]
  constructor
  · rintro ⟨u, v, hu, hv, rfl⟩
    obtain ⟨y, w, hy, hw, rfl⟩ := matches_all_cons.1 hv
    obtain ⟨x, rfl⟩ := matches_doubled.1 hy
    rw [matches_just.1 hu, matches_just.1 hw]
    exact ⟨x, rfl⟩
  · rintro ⟨x, rfl⟩
    exact ⟨[q], doubled q x ++ [q], matches_just.2 rfl, matches_all_cons.2
      ⟨doubled q x, [q], matches_doubled.2 ⟨x, rfl⟩, matches_just.2 rfl, rfl⟩, rfl⟩

theorem matches_identifier_iff_name : Matches identifier s ↔ Name s := by
  simp only [identifier, oneOf, matches_alt, matches_enclosed_iff_quoted]
  constructor
  · rintro (h | h | h | h)
    · exact .quoted (List.mem_cons_self) h
    · exact .quoted (List.mem_cons_of_mem _ List.mem_cons_self) h
    · obtain ⟨b, rfl, hb⟩ := matches_bracketed.1 h
      obtain ⟨x, rfl, hx⟩ := exists_of_read_bracket hb
      exact .bracketed fun hm ↦ hx _ hm rfl
    · obtain ⟨u, cs, hu, hv, rfl⟩ := matches_seq.1 h
      obtain ⟨c, hc, rfl⟩ := matches_char.1 hu
      exact .bare ⟨c, cs, rfl, hc, matches_star_iff_forall.1 hv⟩
  · rintro (⟨hq, h⟩ | hx | ⟨c, cs, rfl, hc, hcs⟩)
    · simp only [List.mem_cons, List.not_mem_nil, or_false] at hq
      rcases hq with rfl | rfl
      · exact .inl h
      · exact .inr (.inl h)
    · rename_i x
      refine .inr (.inr (.inl (matches_bracketed.2 ⟨x ++ [']'], rfl, ?_⟩)))
      rw [Fence.read_append, read_bracket_inside fun c hc he ↦ hx (he ▸ hc)]
      rfl
    · exact .inr (.inr (.inr (.seq (s := [c]) (.char hc) (matches_star_iff_forall.2 hcs))))

theorem matches_letter {d u : Char} (hd : d.toNat = u.toNat + 32)
    (hu : 0x41 ≤ u.toNat ∧ u.toNat ≤ 0x5a) : Matches (letter d) s ↔ ∃ c ∈ [d, u], s = [c] := by
  have hletter : ∀ c : Char, (c.toLower == d.toLower) = true ↔ c ∈ [d, u] := by
    intro c
    have hc := Text.toNat_toLower c
    have hd' := Text.toNat_toLower d
    simp only [beq_iff_eq, List.mem_cons, List.not_mem_nil, or_false, ← Char.toNat_inj]
    split at hc <;> split at hd' <;> omega
  simp only [letter, matches_char, hletter]

/-- One or more characters of a class. -/
theorem matches_plus_iff_forall {a : Regex} {test : Char → Bool}
    (ha : ∀ u, Matches a u ↔ ∃ c, test c = true ∧ u = [c]) :
    Matches (plus a) s ↔ s ≠ [] ∧ ∀ c ∈ s, test c = true := by
  have hstar : ∀ s, Matches (.star a) s ↔ ∀ c ∈ s, test c = true := by
    intro s
    induction s with
    | nil => exact iff_of_true .stop (List.forall_mem_nil _)
    | cons c s ih =>
      simp only [matches_star_cons, ha, List.forall_mem_cons, ← ih]
      constructor
      · rintro ⟨u, v, ⟨d, hd, he⟩, hv, rfl⟩
        obtain ⟨rfl, rfl⟩ := List.cons.inj he
        exact ⟨hd, hv⟩
      · rintro ⟨hc, hs⟩
        exact ⟨[], s, ⟨c, hc, rfl⟩, hs, rfl⟩
  simp only [matches_plus, ha, hstar]
  constructor
  · rintro ⟨u, v, ⟨c, hc, rfl⟩, hv, rfl⟩
    exact ⟨List.cons_ne_nil _ _, List.forall_mem_cons.2 ⟨hc, hv⟩⟩
  · rintro ⟨hne, h⟩
    obtain ⟨c, s, rfl⟩ := List.exists_cons_of_ne_nil hne
    rw [List.forall_mem_cons] at h
    exact ⟨[c], s, ⟨c, h.1, rfl⟩, h.2, rfl⟩

theorem matches_digits : Matches (plus digit) s ↔ Digits s :=
  matches_plus_iff_forall fun _ ↦ matches_char

theorem matches_hexDigits :
    Matches (plus hexDigit) s ↔ s ≠ [] ∧ ∀ c ∈ s, isHexDigit c = true := by
  refine matches_plus_iff_forall fun u ↦ ?_
  simp only [hexDigit, oneOf, digit, range, matches_alt, matches_char, isHexDigit, Bool.or_eq_true,
    or_and_right, exists_or, or_assoc]
  rfl

theorem matches_exponent :
    Matches (opt (all [letter 'e', opt (anyOf ['-', '+']), plus digit])) s ↔ Exponent s := by
  have hsign : ∀ t, Matches (opt (anyOf ['-', '+'])) t ↔ t ∈ [[], ['-'], ['+']] := by
    intro t
    rw [opt, matches_alt, matches_empty, anyOf, matches_char]
    simp only [List.contains_cons, List.contains_nil, Bool.or_false, Bool.or_eq_true, beq_iff_eq,
      List.mem_cons, List.not_mem_nil, or_false]
    constructor
    · rintro (⟨c, rfl | rfl, rfl⟩ | rfl) <;> simp
    · rintro (rfl | rfl | rfl)
      · exact .inr rfl
      · exact .inl ⟨'-', .inl rfl, rfl⟩
      · exact .inl ⟨'+', .inr rfl, rfl⟩
  rw [opt, matches_alt, matches_empty, matches_all_cons]
  constructor
  · rintro (⟨u, v, hu, hv, rfl⟩ | rfl)
    · obtain ⟨e, he, rfl⟩ := (matches_letter (u := 'E') rfl (by decide)).1 hu
      obtain ⟨t, ds, ht, hds, rfl⟩ := matches_all_cons.1 hv
      have h : Exponent (e :: t ++ ds) := .digits he ((hsign t).1 ht) (matches_digits.1 hds)
      exact h
    · exact .none
  · rintro (_ | ⟨he, ht, hds⟩)
    · exact .inr rfl
    · rename_i e t ds
      exact .inl ⟨[e], t ++ ds, (matches_letter (u := 'E') rfl (by decide)).2 ⟨e, he, rfl⟩,
        matches_all_cons.2 ⟨t, ds, (hsign t).2 ht, matches_digits.2 hds, rfl⟩, rfl⟩

theorem matches_number_iff_numeral : Matches number s ↔ Numeral s := by
  have hstar : ∀ t, Matches (.star digit) t ↔ ∀ c ∈ t, c.isDigit = true :=
    fun t ↦ matches_star_iff_forall
  simp only [number, oneOf, matches_alt, matches_seq]
  constructor
  · rintro (⟨u, e, ⟨ds, p, hds, hp, rfl⟩ | ⟨dot, ps, hdot, hps, rfl⟩, he, rfl⟩ | h)
    · have he := matches_exponent.1 he
      have hds := matches_digits.1 hds
      rcases matches_alt.1 hp with hp | hp
      · obtain ⟨dot, ps, hdot, hps, rfl⟩ := matches_seq.1 hp
        rw [matches_just.1 hdot]
        exact .fraction hds ((hstar ps).1 hps) he
      · rw [matches_empty.1 hp, List.append_nil]
        exact .whole hds he
    · rw [matches_just.1 hdot]
      exact .places (matches_digits.1 hps) (matches_exponent.1 he)
    · obtain ⟨zero, v, hzero, hv, rfl⟩ := matches_all_cons.1 h
      obtain ⟨u, ds, hu, hds, rfl⟩ := matches_all_cons.1 hv
      obtain ⟨x, hx, rfl⟩ := (matches_letter (u := 'X') rfl (by decide)).1 hu
      rw [matches_just.1 hzero]
      obtain ⟨hne, hhex⟩ := matches_hexDigits.1 hds
      exact .hexadecimal hx hne hhex
  · rintro (⟨hds, he⟩ | ⟨hds, hps, he⟩ | ⟨hps, he⟩ | ⟨hx, hne, hhex⟩)
    · rename_i ds e
      exact .inl ⟨ds, e, .inl ⟨ds, [], matches_digits.2 hds, matches_alt.2 (.inr .empty),
        (List.append_nil ds).symm⟩, matches_exponent.2 he, rfl⟩
    · rename_i ds ps e
      have hp : Matches (.seq (just '.') (.star digit)) ('.' :: ps) :=
        .seq (s := ['.']) (matches_just.2 rfl) ((hstar ps).2 hps)
      exact .inl ⟨ds ++ '.' :: ps, e, .inl ⟨ds, '.' :: ps, matches_digits.2 hds, .left hp, rfl⟩,
        matches_exponent.2 he, rfl⟩
    · rename_i ps e
      exact .inl ⟨'.' :: ps, e, .inr ⟨['.'], ps, matches_just.2 rfl, matches_digits.2 hps, rfl⟩,
        matches_exponent.2 he, rfl⟩
    · rename_i x ds
      exact .inr (matches_all_cons.2 ⟨['0'], x :: ds, matches_just.2 rfl, matches_all_cons.2
        ⟨[x], ds, (matches_letter (u := 'X') rfl (by decide)).2 ⟨x, hx, rfl⟩,
          matches_hexDigits.2 ⟨hne, hhex⟩, rfl⟩, rfl⟩)

/-- A comment goes on to the first star and slash. -/
def EndsBlock (t : List Char) : Prop := ∃ x, t = x ++ ['*', '/'] ∧ ¬['*', '/'] <:+: x ++ ['*']

theorem endsBlock_cons {c : Char} {t : List Char} (h : ¬(c = '*' ∧ t.head? = some '/')) :
    EndsBlock (c :: t) ↔ EndsBlock t := by
  have hhead : ∀ x, t = x ++ ['*', '/'] → ¬['*', '/'] <+: c :: (x ++ ['*']) := by
    rintro x rfl hp
    obtain ⟨hc, hx⟩ := List.cons_prefix_cons.1 hp
    refine h ⟨hc.symm, ?_⟩
    cases x with
    | nil => cases (List.cons_prefix_cons.1 hx).1
    | cons d x => rw [(List.cons_prefix_cons.1 hx).1]; rfl
  constructor
  · rintro ⟨x, he, hx⟩
    cases x with
    | nil =>
      obtain ⟨rfl, rfl⟩ := List.cons.inj he
      exact absurd ⟨rfl, rfl⟩ h
    | cons d x =>
      obtain ⟨rfl, rfl⟩ := List.cons.inj he
      exact ⟨x, rfl, fun hi ↦ hx (List.infix_cons hi)⟩
  · rintro ⟨x, rfl, hx⟩
    refine ⟨c :: x, rfl, fun hi ↦ ?_⟩
    rcases List.infix_cons_iff.1 hi with hp | hi
    · exact hhead x rfl hp
    · exact hx hi

theorem endsBlock_closed {t : List Char} : EndsBlock ('*' :: '/' :: t) ↔ t = [] := by
  constructor
  · rintro ⟨x, he, hx⟩
    rcases x with _ | ⟨d, _ | ⟨e, x⟩⟩
    · exact (List.cons.inj (List.cons.inj he).2).2
    · exact absurd (List.cons.inj (List.cons.inj he).2).1 (by decide)
    · obtain ⟨hd, he⟩ := List.cons.inj he
      rw [← hd, ← (List.cons.inj he).1] at hx
      exact absurd ⟨[], x ++ ['*'], rfl⟩ hx
  · rintro rfl
    exact ⟨[], rfl, by decide⟩

theorem read_block_iff (b : List Char) :
    (Fence.block.read .inside b = .outside ↔ EndsBlock b) ∧
      (Fence.block.read .nearly b = .outside ↔ EndsBlock ('*' :: b)) := by
  induction b with
  | nil =>
    have hshort : ∀ t : List Char, t.length < 2 → ¬EndsBlock t := by
      rintro t ht ⟨x, rfl, -⟩
      rw [List.length_append] at ht
      exact absurd ht (Nat.not_lt.2 (Nat.le_add_left _ _))
    exact ⟨iff_of_false (by decide) (hshort _ (by decide)),
      iff_of_false (by decide) (hshort _ (by decide))⟩
  | cons c b ih =>
    rw [Fence.read_cons, Fence.read_cons, Fence.step, Fence.step]
    by_cases hstar : c = '*'
    · subst hstar
      have hmore : EndsBlock ('*' :: '*' :: b) ↔ EndsBlock ('*' :: b) :=
        endsBlock_cons fun h ↦ absurd h.2 (by simp)
      rw [if_pos rfl, if_pos rfl, hmore]
      exact ⟨ih.2, ih.2⟩
    · have hskip : EndsBlock (c :: b) ↔ EndsBlock b := endsBlock_cons fun h ↦ hstar h.1
      rw [if_neg hstar, if_neg hstar, hskip]
      refine ⟨ih.1, ?_⟩
      by_cases hslash : c = '/'
      · subst hslash
        rw [if_pos rfl, endsBlock_closed]
        cases b with
        | nil => exact iff_of_true rfl rfl
        | cons d b =>
          rw [Fence.read_cons, Fence.step, Fence.read_broken]
          exact iff_of_false (by decide) (List.cons_ne_nil _ _)
      · rw [if_neg hslash, endsBlock_cons fun h ↦ hslash (by simpa using h.2), hskip]
        exact ih.1

end Regex

theorem Kind.mem_all (k : Kind) : k ∈ Kind.all := by
  have h : k.ctorIdx < Kind.count := by cases k <;> decide
  exact List.mem_map.2 ⟨k.ctorIdx, List.mem_range.2 h, Kind.ofNat_ctorIdx k⟩

namespace Spells

variable {r : LexRule} {k : Kind} {s rest : List Char}

theorem line_iff : Spells .lineComment s rest ↔
    Matches (.seq lineStart (.seq (opt (just '\r')) (just '\n'))) s ∨
      rest = [] ∧ Matches lineStart s := by
  have hline : ∀ x, Matches (.star (noneOf ['\r', '\n'])) x ↔ ∀ c ∈ x, c ≠ '\r' ∧ c ≠ '\n' := by
    intro x
    rw [noneOf, matches_star_iff_forall]
    simp
  have hstart : ∀ {x}, (∀ c ∈ x, c ≠ '\r' ∧ c ≠ '\n') → Matches lineStart ('-' :: '-' :: x) :=
    fun hx ↦ matches_lineStart.2 ⟨_, rfl, (hline _).2 hx⟩
  constructor
  · intro h
    cases h with
    | fixed hw => cases hw
    | line hx hstop =>
      rcases hstop with rfl | rfl | ⟨rfl, hrest⟩
      · exact .inl (.seq (hstart hx) (.seq (s := []) (.right .empty) (matches_just.2 rfl)))
      · exact .inl (.seq (hstart hx) (.seq (s := ['\r']) (.left (matches_just.2 rfl))
          (matches_just.2 rfl)))
      · rw [List.append_nil]
        exact .inr ⟨hrest, hstart hx⟩
  · rintro (h | ⟨hrest, h⟩)
    · obtain ⟨u, v, hu, hv, rfl⟩ := matches_seq.1 h
      obtain ⟨x, rfl, hx⟩ := matches_lineStart.1 hu
      obtain ⟨y, z, hy, hz, rfl⟩ := matches_seq.1 hv
      rw [matches_just.1 hz]
      rcases matches_alt.1 hy with hy | hy
      · rw [matches_just.1 hy]
        exact .line ((hline x).1 hx) (.inr (.inl rfl))
      · rw [matches_empty.1 hy]
        exact .line ((hline x).1 hx) (.inl rfl)
    · obtain ⟨x, rfl, hx⟩ := matches_lineStart.1 h
      have hx := (hline x).1 hx
      have hl : Spells .lineComment ('-' :: '-' :: x ++ []) rest :=
        .line hx (.inr (.inr ⟨rfl, hrest⟩))
      rwa [List.append_nil] at hl

/-- A text that a rule takes is one of its kind. -/
theorem of_accepts (hr : r ∈ LexRule.all) (ha : r.Accepts s rest) : Spells r.kind s rest := by
  rcases List.mem_append.1 hr with hf | hm
  · obtain ⟨w, hw, he⟩ := eq_of_mem_fixed hf
    rw [he] at ha
    exact .fixed hw (matches_word.1 (ha.resolve_right fun h ↦ not_matches_never h.2))
  · simp only [List.mem_cons, List.not_mem_nil, or_false] at hm
    rcases hm with rfl | rfl | rfl | rfl | rfl | rfl | rfl | rfl | rfl
    · exact .name (matches_identifier_iff_name.1 (ha.matches hr hr rfl rfl))
    · exact .number (matches_number_iff_numeral.1 (ha.matches hr hr rfl rfl))
    · rcases matches_parameter.1 (ha.matches hr hr rfl rfl) with
        ⟨ds, rfl, hds⟩ | ⟨m, hm, t, rfl, ht⟩
      · exact .numbered hds
      · exact .named hm (matches_identifier_iff_name.1 ht)
    · exact .string (matches_enclosed_iff_quoted.1 (ha.matches hr hr rfl rfl))
    · obtain ⟨u, t, hu, ht, rfl⟩ := matches_seq.1 (ha.matches hr hr rfl rfl)
      obtain ⟨x, hx, rfl⟩ := (matches_letter (u := 'X') rfl (by decide)).1 hu
      exact .blob hx (matches_enclosed_iff_quoted.1 ht)
    · exact line_iff.2 ha
    · obtain ⟨b, rfl, hb⟩ := matches_blockComment.1 (ha.matches hr hr rfl rfl)
      obtain ⟨x, rfl, hx⟩ := (read_block_iff b).1.1 hb
      exact .block hx
    · obtain ⟨c, hc, rfl⟩ := matches_char.1 (ha.matches hr hr rfl rfl)
      exact .blank (List.contains_iff_mem.1 hc)
    · obtain ⟨c, -, rfl⟩ := matches_char.1 (ha.matches hr hr rfl rfl)
      exact .stray

/-- A text of a kind is taken by the rule of this kind. -/
theorem exists_rule (h : Spells k s rest) : ∃ r ∈ LexRule.all, r.kind = k ∧ r.Accepts s rest := by
  cases h with
  | @fixed _ w _ _ hw hs =>
    have hr : { kind := k, text := word w : LexRule } ∈ LexRule.fixed :=
      List.mem_filterMap.2 ⟨k, k.mem_all, by rw [hw]; rfl⟩
    exact ⟨_, List.mem_append_left _ hr, rfl, .inl (matches_word.2 hs)⟩
  | name hs => exact ⟨_, identifier_mem_all, rfl, .inl (matches_identifier_iff_name.2 hs)⟩
  | number hs => exact ⟨_, number_mem_all, rfl, .inl (matches_number_iff_numeral.2 hs)⟩
  | numbered hs => exact ⟨_, parameter_mem_all, rfl, .inl (matches_parameter.2 (.inl ⟨_, rfl, hs⟩))⟩
  | named hm hs =>
    have hs := matches_identifier_iff_name.2 hs
    exact ⟨_, parameter_mem_all, rfl, .inl (matches_parameter.2 (.inr ⟨_, hm, _, rfl, hs⟩))⟩
  | string hs => exact ⟨_, string_mem_all, rfl, .inl (matches_enclosed_iff_quoted.2 hs)⟩
  | @blob x s _ hx hs =>
    exact ⟨_, blob_mem_all, rfl, .inl (.seq (s := [x])
      ((matches_letter (u := 'X') rfl (by decide)).2 ⟨x, hx, rfl⟩)
      (matches_enclosed_iff_quoted.2 hs))⟩
  | line hx hstop => exact ⟨_, lineComment_mem_all, rfl, line_iff.1 (.line hx hstop)⟩
  | @block x _ hx =>
    have hread := (read_block_iff (x ++ ['*', '/'])).1.2 ⟨x, rfl, hx⟩
    exact ⟨_, blockComment_mem_all, rfl, .inl (matches_blockComment.2 ⟨_, rfl, hread⟩)⟩
  | blank hc => exact ⟨_, blank_mem_all, rfl, .inl (.char (List.contains_iff_mem.2 hc))⟩
  | stray => exact ⟨_, stray_mem_all, rfl, .inl (.char rfl)⟩

end Spells

end PlanCache
