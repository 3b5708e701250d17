import PlanCache.Plan.Display
import PlanCache.Plan.Sketch
import PlanCache.Proofs.JsonTexts
import PlanCache.Proofs.NormalForm
import PlanCache.Proofs.Spacing

/-!
The text of a plan. It is read back as the object that was written, with its keys in their order,
so that a plan is always displayed indented and never as it stands. Its tables are names that
follow `FROM` or `JOIN` in the query, in strictly increasing order, or the one name that stands for
no table.
-/

namespace PlanCache

namespace Text

variable {c : Char} {keyword word name cs rest : List Char} {n : Nat}

theorem isWord_of_isBlank (h : isBlank c = true) : isWord c = false := by
  have hnone : blanks.all (fun n ↦ !within alnumBounds n && n != '_'.toNat) = true := by
    decide +kernel
  have hc := List.all_eq_true.1 hnone _ (mem_blanks h)
  rw [Bool.and_eq_true, Bool.not_eq_true', bne_iff_ne] at hc
  rw [isWord, isAlnum, hc.1, Bool.false_or, beq_eq_false_iff_ne]
  rintro rfl
  exact hc.2 rfl

/-- A name follows a keyword in a text: there is white space between the keyword, in either case,
and the name, and the name is as long as it can be. -/
def Follows (keyword name cs : List Char) : Prop :=
  ∃ before word blanks after, cs = before ++ (word ++ (blanks ++ (name ++ after))) ∧
    isKeyword keyword word = true ∧ (blanks ≠ [] ∧ ∀ c ∈ blanks, isBlank c = true) ∧
    (name ≠ [] ∧ ∀ c ∈ name, isWord c = true) ∧ ∀ c ∈ after.head?, isWord c = false

theorem Follows.cons (h : Follows keyword name cs) (c : Char) :
    Follows keyword name (c :: cs) := by
  obtain ⟨before, word, blanks, after, rfl, h⟩ := h
  exact ⟨c :: before, word, blanks, after, rfl, h⟩

theorem isKeyword_iff : isKeyword keyword word = true ↔ afterKeyword? keyword word = some [] := by
  rw [isKeyword, beq_iff_eq]

theorem afterKeyword?_append (h : isKeyword keyword word = true) (rest : List Char) :
    afterKeyword? keyword (word ++ rest) = some rest := by
  rw [isKeyword_iff] at h
  induction keyword generalizing word with
  | nil => rw [Option.some.inj h, List.nil_append, afterKeyword?]
  | cons p ps ih =>
    cases word with
    | nil => cases h
    | cons c cs =>
      rw [afterKeyword?] at h
      rw [List.cons_append, afterKeyword?]
      split at h
      · rename_i hletter
        rw [if_pos hletter, ih h]
      · cases h

theorem exists_isKeyword (h : afterKeyword? keyword cs = some rest) :
    ∃ word, isKeyword keyword word = true ∧ cs = word ++ rest := by
  simp only [isKeyword_iff]
  induction keyword generalizing cs with
  | nil => exact ⟨[], rfl, Option.some.inj h⟩
  | cons p ps ih =>
    cases cs with
    | nil => cases h
    | cons c cs =>
      rw [afterKeyword?] at h
      split at h
      · rename_i hletter
        obtain ⟨word, hword, rfl⟩ := ih h
        exact ⟨c :: word, by rw [afterKeyword?, if_pos hletter, hword], rfl⟩
      · cases h

/-- A name found at the beginning of a text follows the keyword there. -/
theorem follows_of_nameAfter? (h : nameAfter? keyword cs = some (name, n)) :
    Follows keyword name cs := by
  unfold nameAfter? at h
  split at h
  · cases h
  · rename_i rest hafter
    dsimp only at h
    split at h
    · cases h
    · rename_i hne
      rw [Bool.or_eq_true, not_or, List.isEmpty_iff, List.isEmpty_iff] at hne
      obtain ⟨word, hword, rfl⟩ := exists_isKeyword hafter
      have hname := (Prod.mk.inj (Option.some.inj h)).1
      subst hname
      refine ⟨[], word, rest.takeWhile isBlank,
        (rest.dropWhile isBlank).dropWhile isWord, ?_, hword, ⟨hne.1, ?_⟩, ⟨hne.2, ?_⟩, ?_⟩
      · rw [List.nil_append, List.takeWhile_append_dropWhile, List.takeWhile_append_dropWhile]
      · exact List.all_eq_true.1 List.all_takeWhile
      · exact List.all_eq_true.1 List.all_takeWhile
      · intro c hc
        have hstop := List.head?_dropWhile_not isWord (rest.dropWhile isBlank)
        rw [Option.mem_def.1 hc] at hstop
        exact hstop

/-- At a keyword with white space and a name behind it a name is found. -/
theorem nameAfter?_ne_none {blanks : List Char} (hword : isKeyword keyword word = true)
    (hne : blanks ≠ []) (hblanks : ∀ c ∈ blanks, isBlank c = true) (hname : name ≠ [])
    (hchars : ∀ c ∈ name, isWord c = true) (after : List Char) :
    nameAfter? keyword (word ++ (blanks ++ (name ++ after))) ≠ none := by
  cases name with
  | nil => exact absurd rfl hname
  | cons c cs =>
    have hc := hchars c List.mem_cons_self
    have hfirst : isBlank c = false := by
      refine Bool.eq_false_iff.2 fun hblank ↦ ?_
      rw [isWord_of_isBlank hblank] at hc
      cases hc
    have hspace : (blanks ++ (c :: cs ++ after)).takeWhile isBlank = blanks := by
      rw [List.takeWhile_append_of_pos hblanks, List.cons_append,
        List.takeWhile_cons_of_neg (by rw [hfirst]; decide), List.append_nil]
    have hrest : (blanks ++ (c :: cs ++ after)).dropWhile isBlank = c :: (cs ++ after) := by
      rw [List.dropWhile_append_of_pos hblanks, List.cons_append,
        List.dropWhile_cons_of_neg (by rw [hfirst]; decide)]
    rw [nameAfter?, afterKeyword?_append hword]
    dsimp only
    rw [hspace, hrest, List.takeWhile_cons_of_pos hc, if_neg (by simp [hne])]
    exact Option.some_ne_none _

theorem follows_of_mem_namesFrom {skip : Nat} (h : name ∈ namesFrom keyword skip cs) :
    Follows keyword name cs := by
  induction cs generalizing skip with
  | nil => cases h
  | cons c cs ih =>
    unfold namesFrom at h
    split at h
    · exact (ih h).cons c
    · split at h
      · rename_i hname
        rcases List.mem_cons.1 h with rfl | h
        · exact follows_of_nameAfter? hname
        · exact (ih h).cons c
      · exact (ih h).cons c

theorem namesFrom_eq_nil (h : namesFrom keyword 0 (c :: cs) = []) :
    nameAfter? keyword (c :: cs) = none ∧ namesFrom keyword 0 cs = [] := by
  unfold namesFrom at h
  dsimp only at h
  split at h
  · cases h
  · exact ⟨‹_›, h⟩

/-- Where a name follows the keyword some name is found, if not this one. -/
theorem Follows.namesFrom_ne_nil (h : Follows keyword name cs) : namesFrom keyword 0 cs ≠ [] := by
  obtain ⟨before, word, blanks, after, rfl, hword, ⟨hne, hblanks⟩, ⟨hname, hchars⟩, -⟩ := h
  intro hnil
  induction before with
  | nil =>
    have hfound := nameAfter?_ne_none hword hne hblanks hname hchars after
    rw [List.nil_append] at hnil
    cases hcs : word ++ (blanks ++ (name ++ after)) with
    | nil =>
      simp only [List.append_eq_nil_iff] at hcs
      exact hne hcs.2.1
    | cons c cs =>
      rw [hcs] at hnil hfound
      exact hfound (namesFrom_eq_nil hnil).1
  | cons c before ih => exact ih (namesFrom_eq_nil hnil).2

end Text

namespace Sketch

variable {cs : List Char} {t : String}

/-- A name follows `FROM` or `JOIN` in a query. -/
def NamesTable (cs name : List Char) : Prop :=
  Text.Follows "from".toList name cs ∨ Text.Follows "join".toList name cs

theorem mem_tableNames :
    t ∈ tableNames cs ↔ t ∈ Text.namesAfter "from" cs ∨ t ∈ Text.namesAfter "join" cs := by
  rw [tableNames, List.mem_mergeSort, List.mem_eraseDups, List.mem_append]

theorem namesTable_of_mem (h : t ∈ tableNames cs) : NamesTable cs t.toList := by
  have hfollows : ∀ keyword, t ∈ Text.namesAfter keyword cs →
      Text.Follows keyword.toList t.toList cs := by
    intro keyword hmem
    obtain ⟨name, hname, rfl⟩ := List.mem_map.1 hmem
    rw [String.toList_ofList]
    exact Text.follows_of_mem_namesFrom hname
  exact (mem_tableNames.1 h).imp (hfollows _) (hfollows _)

theorem tableNames_ne_nil {name : List Char} (h : NamesTable cs name) : tableNames cs ≠ [] := by
  have hexists : ∃ t, t ∈ Text.namesAfter "from" cs ∨ t ∈ Text.namesAfter "join" cs := by
    rcases h with h | h
    · obtain ⟨n, hn⟩ := List.exists_mem_of_ne_nil _ h.namesFrom_ne_nil
      exact ⟨_, .inl (List.mem_map_of_mem hn)⟩
    · obtain ⟨n, hn⟩ := List.exists_mem_of_ne_nil _ h.namesFrom_ne_nil
      exact ⟨_, .inr (List.mem_map_of_mem hn)⟩
  obtain ⟨t, ht⟩ := hexists
  exact List.ne_nil_of_mem (mem_tableNames.2 ht)

/-- The names are in increasing order, each once. -/
theorem pairwise_tableNames (cs : List Char) : (tableNames cs).Pairwise (· < ·) := by
  have hle : (tableNames cs).Pairwise (· ≤ ·) := by
    refine List.Pairwise.imp of_decide_eq_true (List.pairwise_mergeSort ?_ ?_ _)
    · intro a b c hab hbc
      exact decide_eq_true (String.le_trans (of_decide_eq_true hab) (of_decide_eq_true hbc))
    · intro a b
      simpa using String.le_total a b
  have hne : (tableNames cs).Nodup := (List.mergeSort_perm _ _).nodup_iff.2 (nodup_eraseDups _)
  refine hle.imp₂ (fun a b hab hne ↦ ?_) hne
  exact String.not_le.1 fun hba ↦ hne (String.le_antisymm hab hba)

theorem tables_ofQuery (query : String) :
    (ofQuery query).tables = tableNames query.toList ∨
      tableNames query.toList = [] ∧ (ofQuery query).tables = ["unknown_table"] := by
  cases h : tableNames query.toList with
  | nil => exact .inr ⟨rfl, by rw [ofQuery, h]⟩
  | cons t ts => exact .inl (by rw [ofQuery, h])

theorem tables_ne_nil (query : String) : (ofQuery query).tables ≠ [] := by
  cases h : tableNames query.toList with
  | nil => simp [ofQuery, h]
  | cons t ts => simp [ofQuery, h]

theorem plain_json (s : Sketch) : s.json.Plain := by
  have hkeys : [Units.ofString "plan_id", .ofString "plan_type", .ofString "tables"].Nodup := by
    decide
  refine .obj hkeys fun m hm ↦ ?_
  simp only [List.mem_cons, List.not_mem_nil, or_false] at hm
  rcases hm with rfl | rfl | rfl
  · exact .str _
  · exact .str _
  · refine .arr fun v hv ↦ ?_
    obtain ⟨t, -, rfl⟩ := List.mem_map.1 hv
    exact .str _

end Sketch

theorem display_planText (query : String) (found : List String) (metrics : List (String × Value))
    (shown : String) (hits : Value) :
    display (.text (planText query)) found metrics shown hits =
      .ok (Display.heading shown ++ (Sketch.ofQuery query).json.write 6 ++ "\n" ++
        Display.closing found metrics hits) := by
  have hread : Display.indented? (.text (planText query)) =
      some ((Sketch.ofQuery query).json.write 6) := by
    rw [Display.indented?, planText, Sketch.text, (Sketch.plain_json _).read?_write]
    rfl
  rw [display, Display.plan, hread]
  · rfl
  · intro _ h
    cases h

/-- The text of a plan is read back as the object with the plan's identifier, kind and tables, whose
strings hold the texts that were computed, and is displayed as this object. There is a table, and
the tables increase strictly. They are the names found after `FROM` and `JOIN`, each of which stands
in the query behind one of these words; where none does, one name stands for no table. -/
theorem planText_roundTrip (query : String) :
    let s := Sketch.ofQuery query
    Json.read? (planText query) = some (.obj [(.ofString "plan_id", .ofString s.id),
        (.ofString "plan_type", .ofString s.scan),
        (.ofString "tables", .arr (s.tables.map .ofString))]) ∧
      (∀ text : String, (Units.ofString text).toString = text) ∧
      s.tables ≠ [] ∧ s.tables.Pairwise (· < ·) ∧
      ((∃ name, Sketch.NamesTable query.toList name) ∧
          (∀ t, t ∈ s.tables ↔
            t ∈ Text.namesAfter "from" query.toList ∨ t ∈ Text.namesAfter "join" query.toList) ∧
          (∀ t ∈ s.tables, Sketch.NamesTable query.toList t.toList) ∨
        (¬∃ name, Sketch.NamesTable query.toList name) ∧ s.tables = ["unknown_table"]) ∧
      ∀ found metrics shown hits, display (.text (planText query)) found metrics shown hits =
        .ok (Display.heading shown ++ s.json.write 6 ++ "\n" ++
          Display.closing found metrics hits) := by
  refine ⟨(Sketch.plain_json _).read?_write 4, Units.toString_ofString,
    Sketch.tables_ne_nil query, ?_, ?_, display_planText query⟩
  · rcases Sketch.tables_ofQuery query with h | ⟨-, h⟩
    · rw [h]
      exact Sketch.pairwise_tableNames _
    · rw [h]
      exact List.pairwise_singleton _ _
  · rcases Sketch.tables_ofQuery query with h | ⟨hnone, h⟩
    · obtain ⟨t, ht⟩ := List.exists_mem_of_ne_nil _ (Sketch.tables_ne_nil query)
      rw [h] at ht ⊢
      exact .inl ⟨⟨_, Sketch.namesTable_of_mem ht⟩, fun _ ↦ Sketch.mem_tableNames,
        fun _ ↦ Sketch.namesTable_of_mem⟩
    · refine .inr ⟨?_, h⟩
      rintro ⟨name, hname⟩
      exact Sketch.tableNames_ne_nil hname hnone

end PlanCache
