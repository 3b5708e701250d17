import PlanCache.Proofs.LongestMatch
import PlanCache.Proofs.SimilarTexts
import PlanCache.Proofs.Spacing

/-!
The tokens in which a space can stand: names and strings in quotes or brackets, and comments. Each
has an opening that tells its kind, and a small automaton says where it ends. A token that has come
to its end is not made longer by a space, and squeezing the white space in it leaves it such a
token.
-/

namespace PlanCache

/-- What encloses a text in which a space does not end the token. -/
inductive Fence where
  | quote (mark : Char)
  | bracket
  | block
  | line
deriving DecidableEq

namespace Fence

/-- Where the text behind an opening has got to. -/
inductive State where
  | inside
  | nearly
  | outside
  | broken
deriving DecidableEq

def step : Fence → State → Char → State
  | .quote q, .inside, c => if c = q then .outside else .inside
  | .quote q, .outside, c => if c = q then .inside else .broken
  | .quote _, .nearly, _ | .quote _, .broken, _ => .broken
  | .bracket, .inside, c => if c = ']' then .outside else .inside
  | .bracket, .nearly, _ | .bracket, .outside, _ | .bracket, .broken, _ => .broken
  | .block, .inside, c => if c = '*' then .nearly else .inside
  | .block, .nearly, c => if c = '*' then .nearly else if c = '/' then .outside else .inside
  | .block, .outside, _ | .block, .broken, _ => .broken
  | .line, .inside, _ => .inside
  | .line, .nearly, _ | .line, .outside, _ | .line, .broken, _ => .broken

def read (f : Fence) (s : State) (cs : List Char) : State := cs.foldl f.step s

/-- The mark at which a text can end. -/
def closer : Fence → Option Char
  | .quote q => some q
  | .bracket => some ']'
  | .block => some '/'
  | .line => none

variable {f : Fence} {s t : State} {c : Char} {cs : List Char}

theorem read_cons : f.read s (c :: cs) = f.read (f.step s c) cs := rfl

theorem read_append (us vs : List Char) : f.read s (us ++ vs) = f.read (f.read s us) vs :=
  List.foldl_append

theorem step_broken : f.step .broken c = .broken := by cases f <;> rfl

theorem read_broken (cs : List Char) : f.read .broken cs = .broken := by
  induction cs with
  | nil => rfl
  | cons c cs ih => rw [read_cons, step_broken, ih]

theorem step_eq_outside (h : f.step s c = .outside) : f.closer = some c := by
  cases f <;> cases s <;> simp only [step, reduceCtorEq] at h <;> grind [closer]

theorem closer_mem (h : f.read s cs = .outside) (hs : s ≠ .outside) :
    ∃ d ∈ cs, f.closer = some d := by
  induction cs generalizing s with
  | nil => exact absurd h hs
  | cons c cs ih =>
    by_cases hc : f.step s c = .outside
    · exact ⟨c, List.mem_cons_self, step_eq_outside hc⟩
    · obtain ⟨d, hd, hf⟩ := ih h hc
      exact ⟨d, List.mem_cons_of_mem _ hd, hf⟩

/-- The marks of a fence are no white space. -/
def Sober (f : Fence) : Prop := ∀ q, f = .quote q → Text.isBlank q = false

theorem step_blank (hf : f.Sober) (hc : Text.isBlank c = true) : f.step s c = f.step s ' ' := by
  have hne : ∀ d, Text.isBlank d = false → c ≠ d ∧ ' ' ≠ d := by
    rintro d hd
    refine ⟨?_, ?_⟩ <;> rintro rfl
    · rw [hc] at hd
      cases hd
    · cases hd
  cases f with
  | quote q => cases s <;> simp [step, hne q (hf q rfl)]
  | bracket => cases s <;> simp [step, hne ']' rfl]
  | block => cases s <;> simp [step, hne '*' rfl, hne '/' rfl]
  | line => cases s <;> rfl

theorem step_space (hf : f.Sober) :
    f.step s ' ' ≠ .outside ∧ f.step (f.step s ' ') ' ' = f.step s ' ' := by
  cases f with
  | quote q =>
    have hq : ' ' ≠ q := by
      rintro rfl
      cases hf ' ' rfl
    cases s <;> simp [step, hq]
  | bracket => cases s <;> simp [step]
  | block => cases s <;> simp [step]
  | line => cases s <;> simp [step]

/-- White space behind white space has no effect, so squeezing it does not change where a text
ends. With a gap the squeezed text is still before the space that has been passed. -/
theorem read_pack (hf : f.Sober) (gap : Bool) (h : f.read s cs = .outside)
    (hst : match gap with
      | true => f.step t ' ' = s ∧ f.step s ' ' = s
      | false => t = s) : f.read t (Text.pack gap cs) = .outside := by
  induction cs generalizing s t gap with
  | nil =>
    cases gap with
    | true =>
      rw [← hst.1] at h
      exact absurd h (step_space hf).1
    | false => rwa [hst]
  | cons c cs ih =>
    rw [read_cons] at h
    rw [Text.pack]
    cases hc : Text.isBlank c with
    | true =>
      rw [if_pos rfl]
      rw [step_blank hf hc] at h
      cases gap with
      | true =>
        rw [hst.2] at h
        exact ih true h hst
      | false =>
        subst hst
        exact ih true h ⟨rfl, (step_space hf).2⟩
    | false =>
      rw [if_neg (by decide)]
      cases gap with
      | true =>
        rw [if_pos rfl, read_cons, hst.1, read_cons]
        exact ih false h rfl
      | false =>
        subst hst
        exact ih false h rfl

end Fence

/-- How a token with a fence begins: which fence it is and the kind of the token. -/
structure Opening where
  fence : Fence
  kind : Kind
deriving DecidableEq

namespace Opening

/-- Openings of names. -/
def names : List (Char × Fence) :=
  [('"', .quote '"'), ('\x60', .quote '\x60'), ('[', .bracket)]

def openings : List (List Char × Opening) :=
  names.map (fun x ↦ ([x.1], ⟨x.2, .identifier⟩)) ++
  [':', '@', '$'].flatMap (fun c ↦ names.map fun x ↦ ([c, x.1], ⟨x.2, .parameter⟩)) ++
  [(['\''], ⟨.quote '\'', .string⟩), (['x', '\''], ⟨.quote '\'', .blob⟩),
    (['X', '\''], ⟨.quote '\'', .blob⟩), (['-', '-'], ⟨.line, .lineComment⟩),
    (['/', '*'], ⟨.block, .blockComment⟩)]

end Opening

/-- A text begins with an opening, behind which `rest` stands. -/
def Opens (text : List Char) (o : Opening) (rest : List Char) : Prop :=
  ∃ p, (p, o) ∈ Opening.openings ∧ text = p ++ rest

/-- Characters that are in no opening. -/
def isCalm (c : Char) : Bool :=
  c != '"' && c != '\x60' && c != '[' && c != '\'' && c != '-' && c != '/'

section Opens

variable {text rest rest' us vs : List Char} {o o' : Opening} {p p' : List Char}

theorem prefix_free (h : (p, o) ∈ Opening.openings) (h' : (p', o') ∈ Opening.openings)
    (hp : p <+: p') : p = p' ∧ o = o' := by
  have hall : Opening.openings.all (fun x ↦ Opening.openings.all fun y ↦
      !x.1.isPrefixOf y.1 || x = y) = true := by decide
  rw [List.all_eq_true] at hall
  have hx := List.all_eq_true.1 (hall _ h) _ h'
  rw [List.isPrefixOf_iff_prefix.2 hp] at hx
  simpa using hx

theorem Opens.unique (h : Opens text o rest) (h' : Opens text o' rest') :
    o = o' ∧ rest = rest' := by
  obtain ⟨p, hp, rfl⟩ := h
  obtain ⟨p', hp', he⟩ := h'
  rcases List.append_eq_append_iff.1 he with ⟨as, rfl, has⟩ | ⟨as, rfl, has⟩
  · obtain ⟨heq, rfl⟩ := prefix_free hp hp' (List.prefix_append _ _)
    rw [List.self_eq_append_right] at heq
    subst heq
    exact ⟨rfl, has⟩
  · obtain ⟨heq, rfl⟩ := prefix_free hp' hp (List.prefix_append _ _)
    rw [List.self_eq_append_right] at heq
    subst heq
    exact ⟨rfl, has.symm⟩

theorem Opens.append (h : Opens text o rest) (vs : List Char) :
    Opens (text ++ vs) o (rest ++ vs) := by
  obtain ⟨p, hp, rfl⟩ := h
  exact ⟨p, hp, List.append_assoc _ _ _⟩

theorem opening_no_blank (h : (p, o) ∈ Opening.openings) :
    p ≠ [] ∧ ∀ c ∈ p, Text.isBlank c = false := by
  have hall : Opening.openings.all (fun x ↦ !x.1.isEmpty && x.1.all (!Text.isBlank ·)) = true := by
    decide
  have hx := List.all_eq_true.1 hall _ h
  simpa using hx

theorem opening_not_calm (h : (p, o) ∈ Opening.openings) : ∃ c ∈ p, isCalm c = false := by
  have hall : Opening.openings.all (fun x ↦ x.1.any (!isCalm ·)) = true := by decide
  have hx := List.all_eq_true.1 hall _ h
  simpa using hx

theorem Opens.sober (h : Opens text o rest) : o.fence.Sober := by
  obtain ⟨p, hp, -⟩ := h
  have hall : Opening.openings.all (fun x ↦ match x.2.fence with
      | .quote q => !Text.isBlank q
      | _ => true) = true := by decide
  have hx := List.all_eq_true.1 hall _ hp
  intro q hq
  rw [hq] at hx
  simpa using hx

theorem Opens.line_iff (h : Opens text o rest) : o.fence = .line ↔ o.kind = .lineComment := by
  obtain ⟨p, hp, -⟩ := h
  have hall : Opening.openings.all (fun x ↦
      decide (x.2.fence = .line) == decide (x.2.kind = .lineComment)) = true := by decide
  have hx := List.all_eq_true.1 hall _ hp
  rwa [beq_iff_eq, decide_eq_decide] at hx

/-- A space is in no opening, so it cannot make one. -/
theorem Opens.of_append_space (h : Opens (us ++ ' ' :: vs) o rest) :
    ∃ rest', Opens us o rest' ∧ rest = rest' ++ ' ' :: vs := by
  obtain ⟨p, hp, he⟩ := h
  rcases List.append_eq_append_iff.1 he with ⟨as, rfl, has⟩ | ⟨as, rfl, has⟩
  · cases as with
    | nil =>
      rw [List.append_nil] at hp
      exact ⟨[], ⟨us, hp, (List.append_nil us).symm⟩, has.symm⟩
    | cons a as =>
      have ha := (opening_no_blank hp).2 a (by simp)
      rw [← (List.cons.inj has).1] at ha
      cases ha
  · exact ⟨as, ⟨p, hp, rfl⟩, has⟩

theorem not_opens_of_calm (h : ∀ c ∈ text, isCalm c = true) : ¬Opens text o rest := by
  rintro ⟨p, hp, rfl⟩
  obtain ⟨c, hc, hn⟩ := opening_not_calm hp
  rw [h c (List.mem_append_left _ hc)] at hn
  cases hn

theorem Opens.squeeze (h : Opens text o rest) :
    Opens (Text.squeeze text) o (Text.pack false rest) := by
  obtain ⟨p, hp, rfl⟩ := h
  obtain ⟨hne, hb⟩ := opening_no_blank hp
  refine ⟨p, hp, ?_⟩
  have hpack : ∀ p : List Char, (∀ c ∈ p, Text.isBlank c = false) →
      Text.pack false (p ++ rest) = p ++ Text.pack false rest := by
    intro p hb
    induction p with
    | nil => rfl
    | cons c p ih =>
      rw [List.forall_mem_cons] at hb
      rw [List.cons_append, Text.pack, hb.1, ih hb.2]
      rfl
  obtain ⟨c, p, rfl⟩ := List.exists_cons_of_ne_nil hne
  rw [List.forall_mem_cons] at hb
  rw [List.cons_append, Text.squeeze, hb.1, hpack p hb.2]
  rfl

end Opens

namespace Regex

open Fence

variable {q : Char} {s b : List Char}

theorem matches_noneOf {cs : List Char} :
    Matches (noneOf cs) s ↔ ∃ c, c ∉ cs ∧ s = [c] := by
  simp [noneOf, matches_char]

theorem matches_star_iff_forall {test : Char → Bool} :
    Matches (.star (.char test)) s ↔ ∀ c ∈ s, test c = true := by
  induction s with
  | nil => simp [Matches.stop]
  | cons c s ih =>
    rw [matches_star_cons, List.forall_mem_cons]
    constructor
    · rintro ⟨u, v, hu, hv, rfl⟩
      obtain ⟨hc, rfl⟩ := matches_char_cons.1 hu
      exact ⟨hc, ih.1 hv⟩
    · rintro ⟨hc, hs⟩
      exact ⟨[], s, .char hc, ih.2 hs, rfl⟩

theorem matches_plus {a : Regex} :
    Matches (plus a) s ↔ ∃ u v, Matches a u ∧ Matches (.star a) v ∧ s = u ++ v := matches_seq

/-- What is between two quotes: the automaton stays inside. -/
theorem read_of_matches_quoted
    (h : Matches (.star (.alt (noneOf [q]) (.seq (just q) (just q)))) s) :
    (Fence.quote q).read .inside s = .inside := by
  generalize hr : Regex.star (.alt (noneOf [q]) (.seq (just q) (just q))) = r at h
  induction h with
  | stop => rfl
  | @more a u v hu _ _ ih =>
    obtain rfl := Regex.star.inj hr
    rw [read_append]
    have hround : (Fence.quote q).read .inside u = .inside := by
      rcases matches_alt.1 hu with hu | hu
      · obtain ⟨c, hc, rfl⟩ := matches_noneOf.1 hu
        simpa [read_cons, step, Fence.read] using hc
      · obtain ⟨x, y, hx, hy, rfl⟩ := matches_seq.1 hu
        rw [matches_just.1 hx, matches_just.1 hy]
        simp [step, Fence.read]
    rw [hround]
    exact ih rfl
  | _ => cases hr

theorem matches_quoted_of_read (h : (Fence.quote q).read .inside b = .outside) :
    ∃ x, b = x ++ [q] ∧ Matches (.star (.alt (noneOf [q]) (.seq (just q) (just q)))) x := by
  induction hn : b.length using Nat.strongRecOn generalizing b with
  | ind n ih =>
    cases b with
    | nil => cases h
    | cons c b =>
      rw [read_cons] at h
      by_cases hc : c = q
      · subst hc
        rw [step, if_pos rfl] at h
        cases b with
        | nil => exact ⟨[], rfl, .stop⟩
        | cons d b =>
          rw [read_cons] at h
          by_cases hd : d = c
          · subst hd
            rw [step, if_pos rfl] at h
            obtain ⟨x, rfl, hx⟩ := ih b.length (by simp only [List.length_cons] at hn; omega) h rfl
            have hround : Matches (.alt (noneOf [d]) (.seq (just d) (just d))) [d, d] :=
              .right (.seq (s := [d]) (matches_just.2 rfl) (matches_just.2 rfl))
            exact ⟨d :: d :: x, rfl, .more hround hx⟩
          · rw [step, if_neg hd, read_broken] at h
            cases h
      · rw [step, if_neg hc] at h
        obtain ⟨x, rfl, hx⟩ := ih b.length (by simp only [List.length_cons] at hn; omega) h rfl
        have hround : Matches (.alt (noneOf [q]) (.seq (just q) (just q))) [c] :=
          .left (matches_noneOf.2 ⟨c, by simpa using hc, rfl⟩)
        exact ⟨c :: x, rfl, .more hround hx⟩

theorem matches_enclosed :
    Matches (LexRule.enclosed q) s ↔
      ∃ b, s = q :: b ∧ (Fence.quote q).read .inside b = .outside := by
  unfold LexRule.enclosed
  rw [matches_all_cons]
  constructor
  · rintro ⟨u, v, hu, hv, rfl⟩
    obtain ⟨x, w, hx, hw, rfl⟩ := matches_all_cons.1 hv
    rw [matches_just.1 hu, matches_just.1 hw]
    refine ⟨x ++ [q], rfl, ?_⟩
    rw [read_append, read_of_matches_quoted hx]
    simp [Fence.read, step]
  · rintro ⟨b, rfl, hb⟩
    obtain ⟨x, rfl, hx⟩ := matches_quoted_of_read hb
    exact ⟨[q], x ++ [q], matches_just.2 rfl,
      matches_all_cons.2 ⟨x, [q], hx, matches_just.2 rfl, rfl⟩, rfl⟩

theorem read_bracket_inside (hb : ∀ c ∈ b, c ≠ ']') : Fence.bracket.read .inside b = .inside := by
  induction b with
  | nil => rfl
  | cons c b ih =>
    rw [List.forall_mem_cons] at hb
    rw [read_cons, step, if_neg hb.1, ih hb.2]

theorem exists_of_read_bracket (h : Fence.bracket.read .inside b = .outside) :
    ∃ x, b = x ++ [']'] ∧ ∀ c ∈ x, c ≠ ']' := by
  induction b with
  | nil => cases h
  | cons c b ih =>
    rw [read_cons] at h
    by_cases hc : c = ']'
    · rw [step, if_pos hc] at h
      cases b with
      | nil => exact ⟨[], by rw [hc]; rfl, nofun⟩
      | cons d b =>
        rw [read_cons, step, read_broken] at h
        cases h
    · rw [step, if_neg hc] at h
      obtain ⟨x, rfl, hx⟩ := ih h
      exact ⟨c :: x, rfl, List.forall_mem_cons.2 ⟨hc, hx⟩⟩

theorem matches_bracketed :
    Matches (all [just '[', .star (noneOf [']']), just ']']) s ↔
      ∃ b, s = '[' :: b ∧ Fence.bracket.read .inside b = .outside := by
  have hstar : ∀ x, Matches (.star (noneOf [']'])) x ↔ ∀ c ∈ x, c ≠ ']' := by
    intro x
    simp [noneOf, matches_star_iff_forall]
  rw [matches_all_cons]
  constructor
  · rintro ⟨u, v, hu, hv, rfl⟩
    obtain ⟨x, w, hx, hw, rfl⟩ := matches_all_cons.1 hv
    rw [matches_just.1 hu, matches_just.1 hw]
    refine ⟨x ++ [']'], rfl, ?_⟩
    rw [read_append, read_bracket_inside ((hstar x).1 hx)]
    rfl
  · rintro ⟨b, rfl, hb⟩
    obtain ⟨x, rfl, hx⟩ := exists_of_read_bracket hb
    exact ⟨['['], x ++ [']'], matches_just.2 rfl,
      matches_all_cons.2 ⟨x, [']'], (hstar x).2 hx, matches_just.2 rfl, rfl⟩, rfl⟩

/-- What a block comment is made of before its last stars. -/
def blockRound : Regex := .alt (noneOf ['*']) (.seq (plus (just '*')) (noneOf ['*', '/']))

/-- What stands behind the opening of a block comment. -/
def blockRest : Regex := .seq (.star blockRound) (.seq (plus (just '*')) (just '/'))

theorem matches_stars : Matches (.star (just '*')) s ↔ ∀ c ∈ s, c = '*' := by
  simp [just, matches_star_iff_forall]

theorem read_nearly_stars (h : ∀ c ∈ s, c = '*') : Fence.block.read .nearly s = .nearly := by
  induction s with
  | nil => rfl
  | cons c s ih =>
    rw [List.forall_mem_cons] at h
    rw [read_cons, h.1]
    exact ih h.2

theorem read_of_matches_plus_star (h : Matches (plus (just '*')) s) :
    Fence.block.read .inside s = .nearly := by
  obtain ⟨u, v, hu, hv, rfl⟩ := matches_plus.1 h
  rw [matches_just.1 hu]
  exact read_nearly_stars (matches_stars.1 hv)

theorem read_of_matches_blockRounds (h : Matches (.star blockRound) s) :
    Fence.block.read .inside s = .inside := by
  generalize hr : Regex.star blockRound = r at h
  induction h with
  | stop => rfl
  | @more a u v hu _ _ ih =>
    obtain rfl := Regex.star.inj hr
    rw [read_append]
    have hround : Fence.block.read .inside u = .inside := by
      rcases matches_alt.1 hu with hu | hu
      · obtain ⟨c, hc, rfl⟩ := matches_noneOf.1 hu
        simpa [Fence.read, step] using hc
      · obtain ⟨x, y, hx, hy, rfl⟩ := matches_seq.1 hu
        obtain ⟨c, hc, rfl⟩ := matches_noneOf.1 hy
        rw [read_append, read_of_matches_plus_star hx]
        simp only [List.mem_cons, List.not_mem_nil, or_false, not_or] at hc
        simp [Fence.read, step, hc]
    rw [hround]
    exact ih rfl
  | _ => cases hr

/-- Behind stars of a comment either more of it follows, or its end. -/
theorem matches_blockRest_of_read (b : List Char) :
    (Fence.block.read .inside b = .outside → Matches blockRest b) ∧
      (Fence.block.read .nearly b = .outside → ∀ x, Matches (plus (just '*')) x →
        Matches blockRest (x ++ b)) := by
  induction b with
  | nil => exact ⟨nofun, nofun⟩
  | cons c b ih =>
    have hround : ∀ {u v : List Char}, Matches blockRound u → Matches blockRest v →
        Matches blockRest (u ++ v) := by
      intro u v hu hv
      obtain ⟨x, y, hx, hy, rfl⟩ := matches_seq.1 hv
      rw [← List.append_assoc]
      exact .seq (.more hu hx) hy
    rw [read_cons, read_cons]
    by_cases hstar : c = '*'
    · subst hstar
      have hone : Matches (plus (just '*')) ['*'] :=
        matches_plus.2 ⟨['*'], [], matches_just.2 rfl, .stop, rfl⟩
      refine ⟨fun h ↦ ih.2 h ['*'] hone, fun h x hx ↦ ?_⟩
      obtain ⟨u, v, hu, hv, rfl⟩ := matches_plus.1 hx
      have hmore : Matches (plus (just '*')) (u ++ v ++ ['*']) := by
        refine matches_plus.2 ⟨u, v ++ ['*'], hu, ?_, List.append_assoc _ _ _⟩
        rw [matches_stars] at hv ⊢
        intro c hc
        rcases List.mem_append.1 hc with hc | hc
        · exact hv c hc
        · exact List.mem_singleton.1 hc
      have hb := ih.2 h _ hmore
      rwa [List.append_assoc] at hb
    · constructor
      · intro h
        rw [step, if_neg hstar] at h
        have hc : Matches blockRound [c] := .left (matches_noneOf.2 ⟨c, by simpa using hstar, rfl⟩)
        exact hround hc (ih.1 h)
      · intro h x hx
        rw [step, if_neg hstar] at h
        by_cases hslash : c = '/'
        · subst hslash
          cases b with
          | nil => exact .seq (s := []) .stop (.seq hx (matches_just.2 rfl))
          | cons d b =>
            rw [if_pos rfl, read_cons, step, read_broken] at h
            cases h
        · rw [if_neg hslash] at h
          have hc : Matches blockRound (x ++ [c]) :=
            .right (.seq hx (matches_noneOf.2 ⟨c, by simp [hstar, hslash], rfl⟩))
          have hb := hround hc (ih.1 h)
          rwa [List.append_assoc] at hb

theorem matches_blockComment :
    Matches LexRule.blockComment s ↔
      ∃ b, s = '/' :: '*' :: b ∧ Fence.block.read .inside b = .outside := by
  unfold LexRule.blockComment
  rw [matches_all_cons]
  constructor
  · rintro ⟨u, v, hu, hv, rfl⟩
    obtain ⟨w, b, hw, hb, rfl⟩ := matches_all_cons.1 hv
    rw [matches_just.1 hu, matches_just.1 hw]
    refine ⟨b, rfl, ?_⟩
    change Matches blockRest b at hb
    obtain ⟨x, y, hx, hy, rfl⟩ := matches_seq.1 hb
    obtain ⟨z, w, hz, hw, rfl⟩ := matches_seq.1 hy
    rw [read_append, read_append, read_of_matches_blockRounds hx, read_of_matches_plus_star hz,
      matches_just.1 hw]
    rfl
  · rintro ⟨b, rfl, hb⟩
    have hb := (matches_blockRest_of_read b).1 hb
    exact ⟨['/'], '*' :: b, matches_just.2 rfl,
      matches_all_cons.2 ⟨['*'], b, matches_just.2 rfl, hb, rfl⟩, rfl⟩

end Regex

section Names

variable {c : Char}

theorem isCalm_of_continuesName (h : LexRule.continuesName c = true) :
    isCalm c = true ∧ c ≠ ' ' := by
  have hne : ∀ d, LexRule.continuesName d = false → c ≠ d := by
    rintro d hd rfl
    rw [h] at hd
    cases hd
  have hcalm : isCalm c = true := by
    simp only [isCalm, Bool.and_eq_true, bne_iff_ne]
    exact ⟨⟨⟨⟨⟨hne '"' rfl, hne '\x60' rfl⟩, hne '[' rfl⟩, hne '\'' rfl⟩, hne '-' rfl⟩, hne '/' rfl⟩
  exact ⟨hcalm, hne ' ' rfl⟩

theorem continuesName_of_startsName (h : LexRule.startsName c = true) :
    LexRule.continuesName c = true := by
  rw [LexRule.continuesName, h, Bool.true_or]

theorem continuesName_of_digit (h : ('0' ≤ c && c ≤ '9') = true) :
    LexRule.continuesName c = true := by
  have hd : c.isDigit = true := h
  rw [LexRule.continuesName, hd, Bool.or_true]

end Names

namespace LexRule

open Regex Opening

variable {r : LexRule} {rs ls : List LexRule} {text rest b s : List Char} {o : Opening} {k : Kind}

theorem matches_identifier :
    Matches identifier s ↔
      (∃ x ∈ names, ∃ b, s = x.1 :: b ∧ x.2.read .inside b = .outside) ∨
        ∃ c cs, s = c :: cs ∧ startsName c = true ∧ ∀ d ∈ cs, continuesName d = true := by
  have hbare : Matches (.seq (.char startsName) (.star (.char continuesName))) s ↔
      ∃ c cs, s = c :: cs ∧ startsName c = true ∧ ∀ d ∈ cs, continuesName d = true := by
    rw [matches_seq]
    constructor
    · rintro ⟨u, cs, hu, hv, rfl⟩
      obtain ⟨c, hc, rfl⟩ := matches_char.1 hu
      exact ⟨c, cs, rfl, hc, matches_star_iff_forall.1 hv⟩
    · rintro ⟨c, cs, rfl, hc, hcs⟩
      exact ⟨[c], cs, .char hc, matches_star_iff_forall.2 hcs, rfl⟩
  simp only [identifier, oneOf, matches_alt, matches_enclosed, matches_bracketed, hbare, names,
    List.mem_cons, List.not_mem_nil, or_false, exists_eq_or_imp, exists_eq_left, or_assoc]

theorem matches_parameter :
    Matches parameter s ↔
      (∃ ds, s = '?' :: ds ∧ ∀ d ∈ ds, ('0' ≤ d && d ≤ '9') = true) ∨
        ∃ c ∈ [':', '@', '$'], ∃ t, s = c :: t ∧ Matches identifier t := by
  rw [parameter, matches_alt, matches_seq, matches_seq]
  refine or_congr ?_ ?_
  · constructor
    · rintro ⟨u, ds, hu, hd, rfl⟩
      rw [matches_just.1 hu]
      exact ⟨ds, rfl, matches_star_iff_forall.1 hd⟩
    · rintro ⟨ds, rfl, hd⟩
      exact ⟨['?'], ds, matches_just.2 rfl, matches_star_iff_forall.2 hd, rfl⟩
  · constructor
    · rintro ⟨u, t, hu, ht, rfl⟩
      obtain ⟨c, hc, rfl⟩ := matches_char.1 hu
      exact ⟨c, List.contains_iff_mem.1 hc, t, rfl, ht⟩
    · rintro ⟨c, hc, t, rfl, ht⟩
      exact ⟨[c], t, .char (List.contains_iff_mem.2 hc), ht, rfl⟩

theorem matches_blob :
    Matches (.seq (letter 'x') string) s ↔
      ∃ c ∈ ['x', 'X'], ∃ b, s = c :: '\'' :: b ∧
        (Fence.quote '\'').read .inside b = .outside := by
  have hx : ∀ c : Char, (c.toLower == 'x'.toLower) = true ↔ c ∈ ['x', 'X'] := by
    intro c
    have hl := Text.toNat_toLower c
    have h₁ : 'x'.toLower.toNat = 0x78 := rfl
    have h₂ : 'x'.toNat = 0x78 := rfl
    have h₃ : 'X'.toNat = 0x58 := rfl
    simp only [beq_iff_eq, List.mem_cons, List.not_mem_nil, or_false, ← Char.toNat_inj]
    split at hl <;> omega
  rw [matches_seq]
  constructor
  · rintro ⟨u, v, hu, hv, rfl⟩
    obtain ⟨c, hc, rfl⟩ := matches_char.1 hu
    obtain ⟨b, rfl, hb⟩ := matches_enclosed.1 hv
    exact ⟨c, (hx c).1 hc, b, rfl, hb⟩
  · rintro ⟨c, hc, b, rfl, hb⟩
    exact ⟨[c], '\'' :: b, .char ((hx c).2 hc), matches_enclosed.2 ⟨b, rfl, hb⟩, rfl⟩

theorem matches_lineStart : Matches lineStart text ↔
    ∃ v, text = '-' :: '-' :: v ∧ Matches (.star (noneOf ['\r', '\n'])) v := by
  constructor
  · intro h
    obtain ⟨u, w, hu, hw, rfl⟩ := matches_all_cons.1 h
    obtain ⟨u', v, hu', hv, rfl⟩ := matches_all_cons.1 hw
    rw [matches_just.1 hu, matches_just.1 hu']
    exact ⟨v, rfl, hv⟩
  · rintro ⟨v, rfl, hv⟩
    exact matches_all_cons.2 ⟨['-'], '-' :: v, matches_just.2 rfl,
      matches_all_cons.2 ⟨['-'], v, matches_just.2 rfl, hv, rfl⟩, rfl⟩

/-- The openings one by one. -/
theorem opens_iff : Opens text o b ↔
    (∃ x ∈ names, text = x.1 :: b ∧ o = ⟨x.2, .identifier⟩) ∨
    (∃ c ∈ [':', '@', '$'], ∃ x ∈ names, text = c :: x.1 :: b ∧ o = ⟨x.2, .parameter⟩) ∨
    (text = '\'' :: b ∧ o = ⟨.quote '\'', .string⟩) ∨
    (∃ c ∈ ['x', 'X'], text = c :: '\'' :: b ∧ o = ⟨.quote '\'', .blob⟩) ∨
    (text = '-' :: '-' :: b ∧ o = ⟨.line, .lineComment⟩) ∨
    (text = '/' :: '*' :: b ∧ o = ⟨.block, .blockComment⟩) := by
  unfold Opens openings
  simp only [List.mem_append, List.mem_map, List.mem_flatMap, List.mem_cons, List.not_mem_nil,
    or_false, Prod.mk.injEq]
  grind

end LexRule

end PlanCache
