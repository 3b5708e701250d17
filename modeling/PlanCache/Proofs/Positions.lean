import Mathlib.Data.List.Chain
import PlanCache.Proofs.LongestMatch

/-!
Where the tokens of a text stand. They follow each other without a gap from its first character to
its last, so their texts joined are the text, and the characters before a token tell its line and
its column.
-/

namespace PlanCache

namespace Cursor

/-- The place behind a text, told by its line feeds and by what follows the last of them. -/
def endOf (before : List Char) : Cursor :=
  ⟨1 + before.count '\n', (before.reverse.takeWhile (· != '\n')).length, before.length⟩

theorem step_endOf (before : List Char) (c : Char) :
    (endOf before).step c = endOf (before ++ [c]) := by
  by_cases hc : c = '\n'
  · subst hc
    simp [step, endOf, Nat.add_assoc]
  · simp [step, endOf, hc]

theorem past_endOf (before cs : List Char) : (endOf before).past cs = endOf (before ++ cs) := by
  induction cs generalizing before with
  | nil => rw [List.append_nil, past, List.foldl_nil]
  | cons c cs ih =>
    rw [past, List.foldl_cons, step_endOf]
    have hcs := ih (before ++ [c])
    rwa [List.append_assoc, List.singleton_append] at hcs

theorem past_append (p : Cursor) (us vs : List Char) : p.past (us ++ vs) = (p.past us).past vs :=
  List.foldl_append

theorem offset_past (p : Cursor) (cs : List Char) : (p.past cs).offset = p.offset + cs.length := by
  induction cs generalizing p with
  | nil => rfl
  | cons c cs ih =>
    have hstep : (p.step c).offset = p.offset + 1 := by
      unfold step
      split <;> rfl
    have hcs : (p.past (c :: cs)).offset = (p.step c).offset + cs.length := ih (p.step c)
    rw [hcs, hstep, List.length_cons]
    omega

end Cursor

namespace Token

open Cursor

/-- The mark of the end at a place. -/
def endMark (p : Cursor) : Token := ⟨.eof, "<EOF>", p.line, p.column, p.offset, 0⟩

theorem length_longest (c : Char) (cs : List Char) :
    ((c :: cs).take (LexRule.longest (c :: cs)).2).length = (LexRule.longest (c :: cs)).2 := by
  rw [List.length_take]
  exact Nat.min_eq_left (LexRule.isLongest_longest c cs).le

theorem exists_scanFrom_eq (p : Cursor) (cs : List Char) :
    ∃ ts, scanFrom p cs = ts ++ [endMark (p.past cs)] ∧ (∀ t ∈ ts, t.kind ≠ .eof) ∧
      ts.flatMap (·.text.toList) = cs := by
  fun_induction scanFrom p cs with
  | case1 p => exact ⟨[], rfl, List.forall_mem_nil _, rfl⟩
  | case2 p c cs found text ih =>
    obtain ⟨ts, hscan, hkind, htexts⟩ := ih
    have hne : found.1 ≠ .eof := (LexRule.isLongest_longest c cs).ne_eof
    refine ⟨⟨found.1, String.ofList text, p.line, p.column, p.offset, text.length⟩ :: ts, ?_,
      List.forall_mem_cons.2 ⟨hne, hkind⟩, ?_⟩
    · rw [hscan, ← past_append, List.take_append_drop, List.cons_append]
    · rw [List.flatMap_cons, htexts, String.toList_ofList, List.take_append_drop]

theorem start_of_head? {p : Cursor} {cs : List Char} {t : Token}
    (h : (scanFrom p cs).head? = some t) : t.start = p.offset := by
  cases cs with
  | nil =>
    rw [scanFrom, List.head?_cons, Option.some.injEq] at h
    rw [← h]
  | cons c cs =>
    rw [scanFrom, List.head?_cons, Option.some.injEq] at h
    rw [← h]

/-- One token begins where the one before it has ended. -/
theorem isChain_scanFrom (p : Cursor) (cs : List Char) :
    (scanFrom p cs).IsChain fun t u ↦ (u.start : Int) = t.stop + 1 := by
  fun_induction scanFrom p cs with
  | case1 p => exact .singleton _
  | case2 p c cs found text ih =>
    refine List.isChain_cons.2 ⟨fun u hu ↦ ?_, ih⟩
    have hstart := start_of_head? hu
    rw [offset_past] at hstart
    simp only [stop, hstart]
    omega

theorem position_of_mem_scanFrom (p : Cursor) (rest before : List Char) (hp : p = endOf before) :
    ∀ t ∈ scanFrom p rest, t.line = (endOf ((before ++ rest).take t.start)).line ∧
      t.column = (endOf ((before ++ rest).take t.start)).column := by
  have hhere : ∀ rest : List Char, (before ++ rest).take p.offset = before := by
    intro rest
    rw [hp]
    exact List.take_left
  fun_induction scanFrom p rest generalizing before with
  | case1 p =>
    intro t ht
    rw [List.mem_singleton.1 ht, hhere, hp]
    exact ⟨rfl, rfl⟩
  | case2 p c cs found text ih =>
    intro t ht
    rcases List.mem_cons.1 ht with rfl | ht
    · rw [hhere, hp]
      exact ⟨rfl, rfl⟩
    · have hnext : p.past text = endOf (before ++ text) := by rw [hp, past_endOf]
      have hrest := ih (before ++ text) hnext ?_ t ht
      · rwa [List.append_assoc, List.take_append_drop] at hrest
      · intro rest
        rw [hnext]
        exact List.take_left

theorem text_of_mem_scanFrom (p : Cursor) (rest before : List Char) (hp : p.offset = before.length) :
    ∀ t ∈ scanFrom p rest, t.kind ≠ .eof →
      0 < t.length ∧ t.text.toList = ((before ++ rest).drop t.start).take t.length := by
  fun_induction scanFrom p rest generalizing before with
  | case1 p =>
    intro t ht hk
    rw [List.mem_singleton.1 ht] at hk
    exact absurd rfl hk
  | case2 p c cs found text ih =>
    intro t ht hk
    have hlen : text.length = found.2 := length_longest c cs
    rcases List.mem_cons.1 ht with rfl | ht
    · have hpos : 0 < found.2 := LexRule.longest_pos (c :: cs)
      rw [String.toList_ofList, hp, List.drop_left, hlen]
      exact ⟨hpos, rfl⟩
    · have hnext : (p.past text).offset = (before ++ text).length := by
        rw [offset_past, hp, List.length_append]
      have hrest := ih (before ++ text) hnext t ht hk
      rwa [List.append_assoc, List.take_append_drop] at hrest

/-- The tokens of a text but the last are parts of it that are not empty and follow each other from
its beginning to its end, where the last one, the mark of the end, stands by itself. Line and column
of a token are those of the character at which it begins. The hidden tokens are the comments and the
blanks. -/
theorem scan_lossless (sql : String) :
    ∃ ts e, scan sql = ts ++ [e] ∧
      (e.kind = .eof ∧ e.start = sql.length ∧ e.stop = (sql.length : Int) - 1) ∧
      (∀ t ∈ ts, t.kind ≠ .eof ∧ (t.start : Int) ≤ t.stop ∧
        t.text.toList = (sql.toList.drop t.start).take (t.stop + 1 - t.start).toNat) ∧
      (∀ t, (scan sql).head? = some t → t.start = 0) ∧
      ((scan sql).IsChain fun t u ↦ (u.start : Int) = t.stop + 1) ∧
      String.join (ts.map Token.text) = sql ∧
      ∀ t ∈ scan sql,
        t.line = 1 + (sql.toList.take t.start).count '\n' ∧
        t.column = ((sql.toList.take t.start).reverse.takeWhile (· != '\n')).length ∧
        t.channel = if t.kind ∈ [.lineComment, .blockComment, .blank] then 1 else 0 := by
  obtain ⟨ts, hscan, hkind, htexts⟩ := exists_scanFrom_eq {} sql.toList
  have hend : (Cursor.past {} sql.toList).offset = sql.length := by
    rw [offset_past, String.length_toList, Nat.zero_add]
  refine ⟨ts, _, hscan, ⟨rfl, hend, ?_⟩, fun t ht ↦ ⟨hkind t ht, ?_⟩, fun t ↦ start_of_head?,
    isChain_scanFrom {} sql.toList, ?_, fun t ht ↦ ?_⟩
  · rw [stop, endMark, hend, Int.natCast_zero, Int.add_zero]
  · have hmem : t ∈ scanFrom {} sql.toList := by
      rw [hscan]
      exact List.mem_append_left _ ht
    obtain ⟨hpos, htext⟩ := text_of_mem_scanFrom {} sql.toList [] rfl t hmem (hkind t ht)
    have hlen : (t.stop + 1 - t.start).toNat = t.length := by
      rw [stop]
      omega
    refine ⟨by rw [stop]; omega, ?_⟩
    rw [hlen]
    exact htext
  · rw [← String.toList_inj, String.toList_join, List.flatMap_map]
    exact htexts
  · obtain ⟨hline, hcolumn⟩ := position_of_mem_scanFrom {} sql.toList [] rfl t ht
    refine ⟨hline, hcolumn, ?_⟩
    rw [channel]
    cases t.kind <;> rfl

end Token

end PlanCache
