import PlanCache.Proofs.Brackets

/-!
Lists of placeholders after `IN`. A list of several placeholders is shortened to `IN ( ?? )`, and
this, as a run of placeholders in brackets, to `IN ( ? )`. So the number of placeholders is not
kept, not even whether it is one.
-/

namespace PlanCache

/-- The texts that pieces are put together from: neither the end of the input nor blank ones. -/
def Piece.words (ps : List Piece) : List String :=
  (ps.filterMap fun p ↦ if p.atEnd then none else p.text).filter (!Text.allBlank ·)

theorem rebuild_eq_shorten (ps : List Piece) : rebuild ps =
    String.ofList (Rebuild.shorten
      (Text.unwords ((Piece.words ps).map fun s ↦ Text.squeeze s.toList))) := by
  rw [rebuild, Rebuild.tidy_eq, Text.squeeze_joinWords, Piece.words]

namespace Rebuild

open Text

/-- The ways to write `IN`. -/
def inWords : List String := ["IN", "In", "iN", "in"]

/-- `n` placeholders, separated by commas, in brackets. -/
def listWords (n : Nat) : List String :=
  "(" :: (List.replicate n placeholder).intersperse "," ++ [")"]

/-- `n + 1` placeholders, separated by commas, and a closing bracket. -/
def commas : Nat → List Char
  | 0 => ['?', ' ', ')']
  | n + 1 => '?' :: ' ' :: ',' :: ' ' :: commas n

/-- A word, and a list of `n + 1` placeholders in brackets. -/
def listed (w : List Char) (n : Nat) : List Char := w ++ ' ' :: '(' :: ' ' :: commas n

section Listed

variable {w : String} {before : Option Char} (n : Nat) (rest : List Char)

theorem toList_of_mem_inWords (hw : w ∈ inWords) : ∃ c d, w.toList = [c, d] ∧
    (c = 'I' ∨ c = 'i') ∧ (d = 'N' ∨ d = 'n') := by
  simp only [inWords, List.mem_cons, List.not_mem_nil, or_false] at hw
  rcases hw with rfl | rfl | rfl | rfl
  · exact ⟨'I', 'N', rfl, .inl rfl, .inl rfl⟩
  · exact ⟨'I', 'n', rfl, .inl rfl, .inr rfl⟩
  · exact ⟨'i', 'N', rfl, .inr rfl, .inl rfl⟩
  · exact ⟨'i', 'n', rfl, .inr rfl, .inr rfl⟩

theorem bars_of_mem_inWords (hw : w ∈ inWords) : Bars (w.toList ++ rest) := by
  obtain ⟨c, d, hcd, hc, -⟩ := toList_of_mem_inWords hw
  have htrim : trimStart (w.toList ++ rest) = c :: d :: rest := by
    rw [hcd]
    rcases hc with rfl | rfl <;> rfl
  have hhead : (w.toList ++ rest).head? = some c := by rw [hcd]; rfl
  refine ⟨fun e he ↦ ?_, fun e he ↦ ?_, fun fuel ↦ ?_⟩
  · obtain rfl := Option.some.inj (hhead.symm.trans he)
    rcases hc with rfl | rfl <;> decide
  · rw [htrim] at he
    obtain rfl := Option.some.inj he
    rcases hc with rfl | rfl <;> decide
  · rw [htrim]
    rcases hc with rfl | rfl <;> rfl

theorem afterList?_commas {fuel : Nat} (h : n < fuel) :
    afterList? fuel (commas n ++ rest) = some (n + 1, rest) := by
  induction n generalizing fuel with
  | zero =>
    obtain ⟨fuel, rfl⟩ : ∃ k, fuel = k + 1 := ⟨fuel - 1, by omega⟩
    exact afterList?_of_close rfl
  | succ n ih =>
    obtain ⟨fuel, rfl⟩ : ∃ k, fuel = k + 1 := ⟨fuel - 1, by omega⟩
    have hread : afterChar? '?' (commas (n + 1) ++ rest) =
        some (',' :: ' ' :: (commas n ++ rest)) := rfl
    have htrim : trimStart (' ' :: (commas n ++ rest)) = commas n ++ rest := by cases n <;> rfl
    rw [afterList?_of_comma hread, htrim, ih (by omega)]
    rfl

theorem lt_length_commas : n < (commas n).length := by
  induction n with
  | zero => decide
  | succ n ih => simp only [commas, List.length_cons]; omega

/-- A list is recognised if it has at least two placeholders. -/
theorem inList?_listed (hw : w ∈ inWords) (hb : before.any isWord = false) :
    inList? before (listed w.toList n ++ rest) =
      if 1 ≤ n then some ((listed w.toList n).length, "IN ( ?? )".toList) else none := by
  obtain ⟨c, d, hcd, hc, hd⟩ := toList_of_mem_inWords hw
  have hin : afterIn? (listed w.toList n ++ rest) = some ('(' :: ' ' :: (commas n ++ rest)) := by
    rw [hcd]
    rcases hc with rfl | rfl <;> rcases hd with rfl | rfl <;> rfl
  have hopen : afterChar? '(' ('(' :: ' ' :: (commas n ++ rest)) = some (commas n ++ rest) := by
    cases n <;> rfl
  have hlen := lt_length_commas n
  have hfuel : n < (listed w.toList n ++ rest).length := by
    simp only [listed, List.length_append, List.length_cons]
    omega
  rw [inList?_eq, if_neg (by rw [hb]; exact Bool.false_ne_true), hin, Option.bind_some,
    afterListed?, hopen, Option.bind_some, afterList?_commas n rest hfuel, Option.bind_some]
  by_cases hn : 1 ≤ n
  · rw [if_pos hn, if_pos (by omega), Option.map_some, List.length_append, Nat.add_sub_cancel]
  · rw [if_neg hn, if_neg (by omega)]
    rfl

theorem getLast?_listed (w : List Char) : (listed w n).getLast? = some ')' := by
  have hcommas : ∀ k, (commas k).getLast? = some ')' := by
    intro k
    induction k with
    | zero => rfl
    | succ k ih => simp [commas, List.getLast?_cons, ih]
  simp [listed, List.getLast?_append, List.getLast?_cons, hcommas]

theorem substituteAfter_inList?_listed (hw : w ∈ inWords) (hb : before.any isWord = false) :
    substituteAfter inList? 0 before (listed w.toList (n + 1) ++ rest) =
      "IN ( ?? )".toList ++ substituteAfter inList? 0 (some ')') rest := by
  have hread := inList?_listed (n + 1) rest hw hb
  rw [if_pos (by omega)] at hread
  rw [substituteAfter_of_read hread (by simp [listed]), getLast?_listed]

/-- A single placeholder is left as it is. -/
theorem substituteAfter_inList?_single (hw : w ∈ inWords) (hb : before.any isWord = false) :
    substituteAfter inList? 0 before (listed w.toList 0 ++ rest) =
      listed w.toList 0 ++ substituteAfter inList? 0 (some ')') rest := by
  have hread := inList?_listed 0 rest hw hb
  obtain ⟨c, d, hcd, hc, hd⟩ := toList_of_mem_inWords hw
  have hsecond : ∀ before cs, inList? before (d :: cs) = none := by
    intro before cs
    have hin : afterIn? (d :: cs) = none := by
      rcases hd with rfl | rfl <;> cases cs <;> rfl
    rw [inList?_eq, hin]
    split <;> rfl
  have hbehind : ∀ e ∈ d :: ' ' :: bracketed 0, ∀ before cs, inList? before (e :: cs) = none := by
    rw [List.forall_mem_cons, List.forall_mem_cons]
    exact ⟨hsecond, inList?_eq_none (by decide), fun e he ↦ inList?_eq_none (mem_bracketed 0 he)⟩
  have hsplit : listed w.toList 0 = c :: d :: ' ' :: bracketed 0 := by rw [listed, hcd]; rfl
  rw [hsplit, if_neg (by decide), List.cons_append] at hread
  rw [hsplit, List.cons_append, substituteAfter_of_none hread, substituteAfter_copy hbehind]
  rfl

/-- A run in brackets after `IN`. -/
theorem substituteAfter_run?_in (hw : w ∈ inWords) (run : List Char) {last : Option Char}
    (hrun : ∀ before, substituteAfter run? 0 before (run ++ rest) =
      "( ? )".toList ++ substituteAfter run? 0 last rest) :
    substituteAfter run? 0 before (w.toList ++ ' ' :: (run ++ rest)) =
      w.toList ++ " ( ? )".toList ++ substituteAfter run? 0 last rest := by
  obtain ⟨c, d, hcd, hc, hd⟩ := toList_of_mem_inWords hw
  have hnone : ∀ e ∈ [c, d, ' '], ∀ before cs, run? before (e :: cs) = none := by
    intro e he before cs
    simp only [List.mem_cons, List.not_mem_nil, or_false] at he
    rcases he with rfl | rfl | rfl
    · rcases hc with rfl | rfl <;> rfl
    · rcases hd with rfl | rfl <;> rfl
    · rfl
  have hcopy := substituteAfter_copy hnone (run ++ rest) before
  rw [hrun] at hcopy
  rw [hcd]
  exact hcopy

theorem substituteAfter_run?_twice (before : Option Char) :
    substituteAfter run? 0 before ("( ?? )".toList ++ rest) =
      "( ? )".toList ++ substituteAfter run? 0 (some ')') rest := by
  have hread : run? before ("( ?? )".toList ++ rest) = some (6, "( ? )".toList) := by
    simp [run?, afterChar?, afterRun?, trimStart, isBlank]
    omega
  exact substituteAfter_of_read hread (by decide)

/-- What is left of a word and a list of `n + 1` placeholders. -/
def shortList (w : String) (n : Nat) : List Char :=
  if 1 ≤ n then "IN ( ? )".toList else w.toList ++ " ( ? )".toList

/-- Lists and then runs are replaced, from a word with a list on. -/
theorem replaced_listed (hw : w ∈ inWords) (hb : before.any isWord = false) :
    Bars (substituteAfter inList? 0 before (listed w.toList n ++ rest)) ∧
    ∀ last, substituteAfter run? 0 last
        (substituteAfter inList? 0 before (listed w.toList n ++ rest)) =
      shortList w n ++ substituteAfter run? 0 (some ')')
        (substituteAfter inList? 0 (some ')') rest) := by
  cases n with
  | zero =>
    rw [substituteAfter_inList?_single rest hw hb, listed, List.append_assoc]
    exact ⟨bars_of_mem_inWords _ hw, fun last ↦ substituteAfter_run?_in _ hw
      (bracketed 0) fun last ↦ substituteAfter_run?_bracketed 0 last _⟩
  | succ n =>
    have hupper : "IN" ∈ inWords := List.mem_cons_self
    rw [substituteAfter_inList?_listed n rest hw hb]
    exact ⟨bars_of_mem_inWords (" ( ?? )".toList ++ _) hupper, fun last ↦
      substituteAfter_run?_in _ hupper "( ?? )".toList (substituteAfter_run?_twice _)⟩

end Listed

theorem bars_nil : Bars [] := ⟨by simp, by simp [trimStart], fun _ ↦ rfl⟩

theorem bars_space : Bars [' '] :=
  ⟨by simp, by simp [trimStart, isBlank], fun _ ↦ rfl⟩

/-- A text is shortened on its own if nothing goes on behind it. -/
theorem shorten_append (cs : List Char) {t : List Char} (ht : Bars t)
    (hreplaced : Bars (substituteAfter inList? 0 cs.getLast? t)) : ∃ last, shorten (cs ++ t) =
      shorten cs ++ substituteAfter run? 0 last (substituteAfter inList? 0 cs.getLast? t) := by
  have hlist := stops_inList?.substituteAfter_append_of_nil bars_nil ht cs none
  have hrun := stops_run?.substituteAfter_append_of_nil bars_nil hreplaced
    (substituteAfter inList? 0 none cs) none
  rw [Option.or_none] at hlist hrun
  unfold shorten substitute
  exact ⟨_, by rw [hlist, hrun]⟩

theorem shorten_append_space (cs : List Char) : shorten (cs ++ [' ']) = shorten cs ++ [' '] := by
  have hlist : substituteAfter inList? 0 cs.getLast? [' '] = [' '] :=
    substituteAfter_of_none (inList?_eq_none (by decide) _ _)
  obtain ⟨last, h⟩ := shorten_append cs bars_space (by rw [hlist]; exact bars_space)
  rw [h, hlist]
  rfl

/-- A word with a list, at the beginning or behind a space. -/
theorem shorten_listed {w : String} (hw : w ∈ inWords) {cs : List Char}
    (hb : cs.getLast?.any isWord = false) (n : Nat) (rest : List Char) :
    shorten (cs ++ (listed w.toList n ++ rest)) = shorten cs ++ shortList w n ++
      substituteAfter run? 0 (some ')') (substituteAfter inList? 0 (some ')') rest) := by
  obtain ⟨hbars, hreplaced⟩ := replaced_listed n rest hw hb
  obtain ⟨last, h⟩ := shorten_append cs
    (by rw [listed, List.append_assoc]; exact bars_of_mem_inWords _ hw) hbars
  rw [h, hreplaced, List.append_assoc]

/-- Behind a space a text is shortened as at its beginning. -/
theorem replaced_space (before last : Option Char) (cs : List Char) :
    substituteAfter run? 0 last (substituteAfter inList? 0 before (' ' :: cs)) =
      ' ' :: shorten cs := by
  have hlist : substituteAfter inList? 0 (some ' ') cs = substitute inList? cs := by
    cases cs <;> rfl
  rw [substituteAfter_of_none (inList?_eq_none (by decide) before cs), hlist,
    substituteAfter_of_none (by rfl), shorten]
  cases substitute inList? cs <;> rfl

/-- The text that words make together. -/
def ofWords (ws : List String) : List Char := shorten (unwords (ws.map fun s ↦ squeeze s.toList))

/-- The text that words make together, if any, and a space behind it. -/
def leading (ws : List String) : List Char := if ws = [] then [] else ofWords ws ++ [' ']

/-- The text that words make together, if any, and a space before it. -/
def trailing (ws : List String) : List Char := if ws = [] then [] else ' ' :: ofWords ws

theorem ofList_shortList (w : String) (n : Nat) :
    String.ofList (shortList w n) = if 2 ≤ n + 1 then "IN ( ? )" else w ++ " ( ? )" := by
  unfold shortList
  by_cases hn : 1 ≤ n
  · rw [if_pos hn, if_pos (Nat.succ_le_succ hn), String.ofList_toList]
  · rw [if_neg hn, if_neg (by omega), String.ofList_append, String.ofList_toList,
      String.ofList_toList]

theorem unwords_cons_of_ne_nil {w : List Char} {ws : List (List Char)} (h : ws ≠ []) :
    unwords (w :: ws) = w ++ ' ' :: unwords ws := by
  obtain ⟨v, vs, rfl⟩ := List.exists_cons_of_ne_nil h
  exact unwords_cons_cons w v vs

theorem unwords_listWords {w : String} (hw : w ∈ inWords) (n : Nat) :
    unwords ((w :: listWords (n + 1)).map fun s ↦ squeeze s.toList) = listed w.toList n := by
  have hcommas : ∀ n, unwords (((List.replicate (n + 1) placeholder).intersperse "," ++ [")"]).map
      fun s ↦ squeeze s.toList) = commas n := by
    intro n
    induction n with
    | zero => rfl
    | succ n ih =>
      rw [List.replicate_succ, List.replicate_succ, List.intersperse_cons_cons,
        ← List.replicate_succ, List.cons_append, List.cons_append, List.map_cons, List.map_cons,
        unwords_cons_of_ne_nil (by simp), unwords_cons_of_ne_nil (by simp), ih]
      rfl
  have hword : squeeze w.toList = w.toList := by
    obtain ⟨c, d, hcd, hc, hd⟩ := toList_of_mem_inWords hw
    rw [hcd]
    rcases hc with rfl | rfl <;> rcases hd with rfl | rfl <;> rfl
  rw [listWords, List.cons_append, List.map_cons, List.map_cons, unwords_cons_of_ne_nil (by simp),
    unwords_cons_of_ne_nil (by simp), hcommas, hword]
  rfl

theorem ofWords_listWords {w : String} (hw : w ∈ inWords) (pre post : List String) (n : Nat) :
    ofWords (pre ++ (w :: listWords (n + 1) ++ post)) =
      leading pre ++ shortList w n ++ trailing post := by
  have hlist := unwords_listWords hw n
  have hbehind : ∃ rest, unwords ((w :: listWords (n + 1) ++ post).map fun s ↦ squeeze s.toList) =
      listed w.toList n ++ rest ∧ substituteAfter run? 0 (some ')')
        (substituteAfter inList? 0 (some ')') rest) = trailing post := by
    by_cases hpost : post = []
    · exact ⟨[], by rw [hpost, List.append_nil, hlist, List.append_nil], by rw [hpost]; rfl⟩
    · refine ⟨' ' :: unwords (post.map fun s ↦ squeeze s.toList), ?_, ?_⟩
      · rw [List.map_append, unwords_append (by simp) (by simpa using hpost), hlist]
      · rw [replaced_space, trailing, if_neg hpost, ofWords]
  obtain ⟨rest, hrest, hreplaced⟩ := hbehind
  have hbefore : ∃ cs, unwords ((pre ++ (w :: listWords (n + 1) ++ post)).map
      fun s ↦ squeeze s.toList) = cs ++ (listed w.toList n ++ rest) ∧
      cs.getLast?.any isWord = false ∧ shorten cs = leading pre := by
    by_cases hpre : pre = []
    · exact ⟨[], by rw [hpre]; exact hrest, rfl, by rw [hpre]; rfl⟩
    · refine ⟨unwords (pre.map fun s ↦ squeeze s.toList) ++ [' '], ?_, ?_, ?_⟩
      · rw [List.map_append, unwords_append (by simpa using hpre) (by simp), hrest,
          List.append_cons, List.append_assoc]
      · rw [List.getLast?_concat]
        rfl
      · rw [shorten_append_space, leading, if_neg hpre, ofWords]
  obtain ⟨cs, hcs, hlast, hleading⟩ := hbefore
  rw [ofWords, hcs, shorten_listed hw hlast, hleading, hreplaced]

end Rebuild

open Rebuild in
/-- However long a list of placeholders after `IN` is, it is written `IN ( ? )`, between what the
words before it and those behind it make. A single placeholder is left as it stands, so a longer
list can be told from it by the letters of `IN` only. -/
theorem rebuild_inList {ps : List Piece} {pre post : List String} {w : String} {n : Nat}
    (hw : w ∈ inWords) (hn : 1 ≤ n) (h : Piece.words ps = pre ++ (w :: listWords n ++ post)) :
    rebuild ps = String.ofList (leading pre) ++ (if 2 ≤ n then "IN ( ? )" else w ++ " ( ? )") ++
        String.ofList (trailing post) ∧
      ∀ qs, Piece.words qs = pre ++ (w :: listWords 1 ++ post) →
        (rebuild ps = rebuild qs ↔ n = 1 ∨ w = "IN") := by
  have hall : ∀ m, 1 ≤ m → ∀ rs, Piece.words rs = pre ++ (w :: listWords m ++ post) →
      rebuild rs = String.ofList (leading pre) ++ (if 2 ≤ m then "IN ( ? )" else w ++ " ( ? )") ++
        String.ofList (trailing post) := by
    intro m hm rs hrs
    obtain ⟨m, rfl⟩ : ∃ k, m = k + 1 := ⟨m - 1, by omega⟩
    rw [rebuild_eq_shorten, hrs, ← ofWords, ofWords_listWords hw, String.ofList_append,
      String.ofList_append, ofList_shortList]
  refine ⟨hall n hn ps h, fun qs hqs ↦ ?_⟩
  rw [hall n hn ps h, hall 1 (Nat.le_refl 1) qs hqs, String.append_left_inj,
    String.append_right_inj, if_neg (by decide : ¬2 ≤ 1)]
  by_cases hlong : 2 ≤ n
  · have hupper : "IN ( ? )" = "IN" ++ " ( ? )" := by decide
    have hne : n ≠ 1 := by omega
    rw [if_pos hlong, hupper, String.append_left_inj]
    exact ⟨fun heq ↦ .inr heq.symm, fun hor ↦ (hor.resolve_left hne).symm⟩
  · have hone : n = 1 := by omega
    rw [if_neg hlong]
    exact ⟨fun _ ↦ .inl hone, fun _ ↦ rfl⟩

open Rebuild in
/-- Three placeholders, with a blank between two of them. -/
theorem rebuild_inList_three :
    "In" ∈ inWords ∧
      Piece.words (["a", "In", "(", "?", ",", " ", "?", ",", "?", ")", ";"].map
        fun s ↦ ⟨some s, false⟩) = ["a"] ++ ("In" :: listWords 3 ++ [";"]) ∧
      rebuild (["a", "In", "(", "?", ",", " ", "?", ",", "?", ")", ";"].map
        fun s ↦ ⟨some s, false⟩) = "a IN ( ? ) ;" := by
  have hwords : Piece.words (["a", "In", "(", "?", ",", " ", "?", ",", "?", ")", ";"].map
      fun s ↦ ⟨some s, false⟩) = ["a"] ++ ("In" :: listWords 3 ++ [";"]) := by decide +kernel
  refine ⟨by decide, hwords, ?_⟩
  rw [(rebuild_inList (by decide) (by decide) hwords).1]
  decide +kernel

/-- A list is not written with the mark for several placeholders, and not kept apart from a single
one. -/
theorem rebuild_ne_marked :
    rebuild (["IN", "(", "?", ",", "?", ")"].map fun s ↦ ⟨some s, false⟩) ≠ "IN ( ?? )" ∧
      rebuild (["IN", "(", "?", ",", "?", ")"].map fun s ↦ ⟨some s, false⟩) =
        rebuild (["IN", "(", "?", ")"].map fun s ↦ ⟨some s, false⟩) := by
  decide +kernel

end PlanCache
