import PlanCache.Proofs.Lexing
import PlanCache.Proofs.LetterCase
import PlanCache.Proofs.Reading
import PlanCache.Query.Literals

/-!
Texts that the search for literals cannot tell apart: both or neither are truth values, and both or
neither are in double quotes. Literals of one kind are such texts.
-/

namespace PlanCache

/-- Digits and single quotes: no truth value has any. -/
def marksValue (c : Char) : Bool := c.isDigit || c == '\''

structure Similar (s t : List Char) : Prop where
  nil : s = [] ↔ t = []
  head : s.head? = some '"' ↔ t.head? = some '"'
  last : s.getLast? = some '"' ↔ t.getLast? = some '"'
  word : s.map Char.toLower = t.map Char.toLower ∨ s.any marksValue = true ∧ t.any marksValue = true

theorem toLower_eq_quote {c : Char} : c.toLower = '"' ↔ c = '"' := by
  have h := Text.toNat_toLower c
  have hq : '"'.toNat = 0x22 := rfl
  rw [← Char.toNat_inj, ← Char.toNat_inj]
  split at h <;> omega

theorem toNat_of_marksValue {c : Char} (h : marksValue c = true) : c.toNat ≤ 0x39 := by
  rw [marksValue, Bool.or_eq_true, Char.isDigit, Bool.and_eq_true, decide_eq_true_eq,
    decide_eq_true_eq, beq_iff_eq] at h
  rcases h with h | rfl
  · exact h.2
  · decide

theorem not_isOwnLower_toLower {c : Char} (h : marksValue c = true) :
    ¬Text.IsOwnLower c.toLower := by
  have hc := toNat_of_marksValue h
  have hl := Text.toNat_toLower c
  rintro ⟨hge, -⟩
  split at hl <;> omega

namespace Similar

variable {s t s' t' : List Char}

theorem refl (s : List Char) : Similar s s := ⟨.rfl, .rfl, .rfl, .inl rfl⟩

theorem of_toLower (h : s.map Char.toLower = t.map Char.toLower) : Similar s t := by
  have quote : ∀ o : Option Char, o = some '"' ↔ o.map Char.toLower = some '"' := by
    intro o
    cases o <;> simp [toLower_eq_quote]
  refine ⟨?_, ?_, ?_, .inl h⟩
  · rw [← List.map_eq_nil_iff, h, List.map_eq_nil_iff]
  · rw [quote s.head?, quote t.head?, ← List.head?_map, ← List.head?_map, h]
  · rw [quote s.getLast?, quote t.getLast?, ← List.getLast?_map, ← List.getLast?_map, h]

theorem append (h : Similar s t) (h' : Similar s' t') : Similar (s ++ s') (t ++ t') := by
  have hhead : ∀ {s s' : List Char}, (s ++ s').head? = some '"' ↔
      s.head? = some '"' ∨ s = [] ∧ s'.head? = some '"' := by
    intro s s'
    cases s <;> simp
  have hlast : ∀ {s s' : List Char}, (s ++ s').getLast? = some '"' ↔
      s'.getLast? = some '"' ∨ s' = [] ∧ s.getLast? = some '"' := by
    intro s s'
    rcases List.eq_nil_or_concat s' with rfl | ⟨l, c, rfl⟩ <;> simp [← List.append_assoc]
  refine ⟨?_, ?_, ?_, ?_⟩
  · rw [List.append_eq_nil_iff, List.append_eq_nil_iff, h.nil, h'.nil]
  · rw [hhead, hhead, h.head, h.nil, h'.head]
  · rw [hlast, hlast, h.last, h'.nil, h'.last]
  · rcases h.word with hw | hw
    · rcases h'.word with hw' | hw'
      · exact .inl (by rw [List.map_append, List.map_append, hw, hw'])
      · exact .inr (by simp only [List.any_append, hw', Bool.or_true, and_self])
    · exact .inr (by simp only [List.any_append, hw, Bool.true_or, and_self])

theorem join {α : Type} {ls : List α} {f g : α → String}
    (h : ∀ l ∈ ls, Similar (f l).toList (g l).toList) :
    Similar (String.join (ls.map f)).toList (String.join (ls.map g)).toList := by
  rw [String.toList_join, String.toList_join]
  induction ls with
  | nil => exact .refl _
  | cons l ls ih =>
    refine append (h l List.mem_cons_self) ?_
    exact ih fun l hl ↦ h l (List.mem_cons_of_mem _ hl)

theorem lower_eq_iff (h : Similar s t) {w : List Char} (hw : ∀ d ∈ w, Text.IsOwnLower d) :
    Text.lower s = w ↔ Text.lower t = w := by
  rw [Text.lower_eq_iff hw, Text.lower_eq_iff hw]
  have marked : ∀ {s : List Char}, s.any marksValue = true → s.map Char.toLower ≠ w := by
    rintro s hs rfl
    obtain ⟨c, hc, hm⟩ := List.any_eq_true.1 hs
    exact not_isOwnLower_toLower hm (hw _ (List.mem_map_of_mem hc))
  rcases h.word with he | ⟨hs, ht⟩
  · rw [he]
  · exact iff_of_false (marked hs) (marked ht)

theorem isDoubleQuoted_eq {s t : String} (h : Similar s.toList t.toList) :
    isDoubleQuoted s = isDoubleQuoted t := by
  rw [Bool.eq_iff_iff]
  simp only [isDoubleQuoted, Bool.and_eq_true, beq_iff_eq, h.head, h.last]

end Similar

/-- A text with digits or single quotes that is not in double quotes. -/
structure Marked (s : List Char) : Prop where
  any : s.any marksValue = true
  head : s.head? ≠ some '"'
  last : s.getLast? ≠ some '"'

theorem Marked.similar {s t : List Char} (hs : Marked s) (ht : Marked t) : Similar s t := by
  have ne_nil : ∀ {s : List Char}, Marked s → s ≠ [] := by
    rintro s h rfl
    cases h.any
  exact ⟨iff_of_false (ne_nil hs) (ne_nil ht), iff_of_false hs.head ht.head,
    iff_of_false hs.last ht.last, .inr ⟨hs.any, ht.any⟩⟩

namespace Regex

variable {r a : Regex} {rs : List Regex} {s : List Char} {p : Char → Prop}

/-- Whether a character is in no text. -/
def avoids (q : Char) : Regex → Bool
  | .never | .empty => true
  | .char test => !test q
  | .seq a b | .alt a b => a.avoids q && b.avoids q
  | .star a => a.avoids q

/-- Some character of each text has a property. -/
def Forces (p : Char → Prop) : Regex → Prop
  | .never => True
  | .empty | .star _ => False
  | .char test => ∀ c, test c = true → p c
  | .seq a b => a.Forces p ∨ b.Forces p
  | .alt a b => a.Forces p ∧ b.Forces p

theorem Matches.not_mem_of_avoids {q : Char} (h : Matches r s) (hr : r.avoids q = true) :
    q ∉ s := by
  induction h with
  | empty | stop => exact List.not_mem_nil
  | @char test c ht =>
    intro hc
    obtain rfl := List.mem_singleton.1 hc
    simp [avoids, ht] at hr
  | seq _ _ iha ihb =>
    rw [avoids, Bool.and_eq_true] at hr
    simp [iha hr.1, ihb hr.2]
  | left _ ih =>
    rw [avoids, Bool.and_eq_true] at hr
    exact ih hr.1
  | right _ ih =>
    rw [avoids, Bool.and_eq_true] at hr
    exact ih hr.2
  | more _ _ iha ihb => simp [iha hr, ihb hr]

theorem Matches.exists_of_forces (h : Matches r s) (hr : r.Forces p) : ∃ c ∈ s, p c := by
  induction h with
  | empty | stop | more => cases hr
  | char ht => exact ⟨_, List.mem_singleton.2 rfl, hr _ ht⟩
  | seq _ _ iha ihb =>
    rcases hr with hr | hr
    · obtain ⟨c, hc, hp⟩ := iha hr
      exact ⟨c, List.mem_append_left _ hc, hp⟩
    · obtain ⟨c, hc, hp⟩ := ihb hr
      exact ⟨c, List.mem_append_right _ hc, hp⟩
  | left _ ih => exact ih hr.1
  | right _ ih => exact ih hr.2

theorem matches_all_cons :
    Matches (all (a :: rs)) s ↔ ∃ u v, Matches a u ∧ Matches (all rs) v ∧ s = u ++ v := by
  cases rs with
  | nil => simp [all, matches_empty]
  | cons b rs => exact matches_seq

theorem matches_just {c : Char} : Matches (just c) s ↔ s = [c] := by
  simp [just, matches_char]

theorem matches_word {w : String} :
    Matches (word w) s ↔ s.map Char.toLower = w.toList.map Char.toLower := by
  unfold word
  induction w.toList generalizing s with
  | nil => simp [all, matches_empty]
  | cons c cs ih =>
    rw [List.map_cons, matches_all_cons, List.map_cons]
    constructor
    · rintro ⟨u, v, hu, hv, rfl⟩
      obtain ⟨d, hd, rfl⟩ := matches_char.1 hu
      rw [List.singleton_append, List.map_cons, ih.1 hv, eq_of_beq hd]
    · intro h
      obtain ⟨d, t, rfl, hd, ht⟩ := List.map_eq_cons_iff.1 h
      exact ⟨[d], t, .char (beq_iff_eq.2 hd), ih.2 ht, rfl⟩

end Regex

namespace LexRule

open Regex

variable {r : LexRule} {s t : List Char} {k : Kind}

theorem text_of_mem_fixed {w : String} (hr : r ∈ fixed) (hk : r.kind.spelling = some w) :
    r.text = word w ∧ r.atEnd = .never := by
  obtain ⟨k, -, h⟩ := List.mem_filterMap.1 hr
  obtain ⟨v, hv, rfl⟩ := Option.map_eq_some_iff.1 h
  obtain rfl := Option.some.inj (hv.symm.trans hk)
  exact ⟨rfl, rfl⟩

theorem spelling_of_mem_fixed (hr : r ∈ fixed) : r.kind.spelling ≠ none := by
  obtain ⟨k, -, h⟩ := List.mem_filterMap.1 hr
  obtain ⟨v, hv, rfl⟩ := Option.map_eq_some_iff.1 h
  exact fun hn ↦ Option.some_ne_none v (hv.symm.trans hn)

theorem toLower_of_fits {w : String} (hk : k.spelling = some w) (h : Fits k s) :
    s.map Char.toLower = w.toList.map Char.toLower := by
  obtain ⟨r, hr, rfl, hm⟩ := h
  rcases List.mem_append.1 hr with hr | hr
  · obtain ⟨ht, he⟩ := text_of_mem_fixed hr hk
    rw [ht, he] at hm
    exact matches_word.1 (hm.resolve_right not_matches_never)
  · simp only [List.mem_cons, List.not_mem_nil, or_false] at hr
    rcases hr with rfl | rfl | rfl | rfl | rfl | rfl | rfl | rfl | rfl <;> cases hk

theorem marked_of_string (h : Matches string s) : Marked s := by
  obtain ⟨u, v, hu, hv, rfl⟩ := matches_all_cons.1 h
  obtain ⟨v, z, -, hz, rfl⟩ := matches_all_cons.1 hv
  obtain rfl := matches_just.1 hu
  obtain rfl := matches_just.1 hz
  refine ⟨by simp [marksValue], by simp, ?_⟩
  rw [← List.append_assoc, List.getLast?_concat]
  decide

theorem marked_of_number (h : Matches number s) : Marked s := by
  have hdigit : ∀ c, ('0' ≤ c && c ≤ '9') = true → marksValue c = true := by
    intro c hc
    rw [marksValue, Char.isDigit, Bool.or_eq_true]
    exact .inl hc
  have hf : number.Forces (marksValue · = true) :=
    ⟨.inl ⟨.inl (.inl hdigit), .inr (.inl hdigit)⟩, .inl fun c hc ↦ by rw [eq_of_beq hc]; decide⟩
  have hq := h.not_mem_of_avoids (by decide : number.avoids '"' = true)
  refine ⟨List.any_eq_true.2 (h.exists_of_forces hf), fun he ↦ ?_, fun he ↦ ?_⟩
  · exact hq (List.mem_of_head? he)
  · exact hq (List.mem_of_getLast? he)

theorem marked_of_blob (h : Matches (.seq (letter 'x') string) s) : Marked s := by
  obtain ⟨u, v, hu, hv, rfl⟩ := matches_seq.1 h
  obtain ⟨c, hc, rfl⟩ := matches_char.1 hu
  have hv := marked_of_string hv
  refine ⟨by simp [hv.any], ?_, ?_⟩
  · rintro he
    obtain rfl : c = '"' := by simpa using he
    revert hc
    decide
  · have hlast := hv.last
    rw [List.getLast?_append]
    cases hl : v.getLast? with
    | none =>
      rw [List.getLast?_eq_none_iff.1 hl] at hv
      cases hv.any
    | some d => rwa [hl] at hlast

theorem marked_of_fits (hk : k = .number ∨ k = .string ∨ k = .blob) (h : Fits k s) : Marked s := by
  obtain ⟨r, hr, rfl, hm⟩ := h
  rcases List.mem_append.1 hr with hr | hr
  · refine absurd ?_ (spelling_of_mem_fixed hr)
    rcases hk with hk | hk | hk <;> rw [hk] <;> rfl
  · simp only [List.mem_cons, List.not_mem_nil, or_false] at hr
    rcases hr with rfl | rfl | rfl | rfl | rfl | rfl | rfl | rfl | rfl <;>
      simp only [reduceCtorEq, or_self] at hk
    · exact marked_of_number (hm.resolve_right not_matches_never)
    · exact marked_of_string (hm.resolve_right not_matches_never)
    · exact marked_of_blob (hm.resolve_right not_matches_never)

theorem allBlank_of_fits (h : Fits .blank s) : s.all Text.isBlank = true := by
  obtain ⟨r, hr, hk, hm⟩ := h
  rcases List.mem_append.1 hr with hr | hr
  · exact absurd (by rw [hk]; rfl) (spelling_of_mem_fixed hr)
  · simp only [List.mem_cons, List.not_mem_nil, or_false] at hr
    rcases hr with rfl | rfl | rfl | rfl | rfl | rfl | rfl | rfl | rfl <;>
      simp only [reduceCtorEq] at hk
    obtain ⟨c, hc, rfl⟩ := matches_char.1 (hm.resolve_right not_matches_never)
    have hc := List.contains_iff_mem.1 hc
    simp only [List.mem_cons, List.not_mem_nil, or_false] at hc
    rcases hc with rfl | rfl | rfl | rfl | rfl <;> rfl

end LexRule

theorem Token.allBlank_of_mem_scan {s : String} {x : Token} (hx : x ∈ scan s)
    (hk : x.kind = .blank) : Text.allBlank x.text = true := by
  rcases fits_of_mem_scanFrom _ _ hx with he | he | hf
  · rw [hk] at he
    cases he
  · rw [hk] at he
    cases he
  · rw [hk] at hf
    exact LexRule.allBlank_of_fits hf

theorem Token.similar_of_literal {s t : String} {x y : Token} (hx : x ∈ scan s) (hy : y ∈ scan t)
    (hk : x.kind = y.kind) (hl : x.kind ∈ literals) : Similar x.text.toList y.text.toList := by
  have fits : ∀ {s : String} {x : Token}, x ∈ scan s → x.kind ∈ literals →
      LexRule.Fits x.kind x.text.toList := by
    intro s x hx hl
    rcases fits_of_mem_scanFrom _ _ hx with he | he | hf
    · rw [he] at hl
      simp [literals] at hl
    · rw [he] at hl
      simp [literals] at hl
    · exact hf
  have hfx := fits hx hl
  have hfy := fits hy (hk ▸ hl)
  rw [← hk] at hfy
  have hcases : (x.kind = .number ∨ x.kind = .string ∨ x.kind = .blob) ∨
      ∃ w, x.kind.spelling = some w := by
    simp only [literals, List.mem_cons, List.not_mem_nil, or_false] at hl
    rcases hl with h | h | h | h | h | h | h | h | h <;> rw [h] <;>
      first | exact .inr ⟨_, rfl⟩ | exact .inl (by decide)
  rcases hcases with hm | ⟨w, hw⟩
  · exact (LexRule.marked_of_fits hm hfx).similar (LexRule.marked_of_fits hm hfy)
  · exact .of_toLower ((LexRule.toLower_of_fits hw hfx).trans (LexRule.toLower_of_fits hw hfy).symm)

end PlanCache
