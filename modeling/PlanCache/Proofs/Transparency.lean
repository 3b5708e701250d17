import PlanCache.Proofs.Readings
import PlanCache.Proofs.StoredPlans

/-!
When a cache changes nothing but the cost: which queries are always answered as by a cache that has
stored nothing. This is so exactly if the text under which a query is stored tells its selects.
-/

namespace PlanCache

namespace Normal

/-- What is left of a query when its inner selects are cut out. -/
def rest (n : Normal) : String :=
  n.leaves.foldl (fun text select ↦ Cache.cutOut select text) n.full

/-- The plan of a query whose inner selects have the plans `inner`. -/
def planWith (n : Normal) (inner : String → Plan) : Plan :=
  .table [(n.rest, .text (planText n.rest)),
    (innerKey, .table (n.leaves.map fun select ↦ (select, inner select)))]

/-- The plan of a query for which no stored plan is used. -/
def ownPlan (n : Normal) : Plan :=
  if n.Plain then .text (planText n.full) else n.planWith fun select ↦ .text (planText select)

theorem ownPlan_of_plain {n : Normal} (h : n.Plain) : n.ownPlan = .text (planText n.full) :=
  if_pos h

theorem ownPlan_of_not_plain {n : Normal} (h : ¬n.Plain) :
    n.ownPlan = n.planWith fun select ↦ .text (planText select) := if_neg h

theorem planWith_congr (n : Normal) {f g : String → Plan}
    (h : ∀ select ∈ n.leaves, f select = g select) : n.planWith f = n.planWith g := by
  have hm : (n.leaves.map fun select ↦ (select, f select)) =
      n.leaves.map fun select ↦ (select, g select) :=
    List.map_congr_left fun select hs ↦ by rw [h select hs]
  rw [planWith, planWith, hm]

theorem planWith_inj {n m : Normal} {f g : String → Plan} (h : n.planWith f = m.planWith g) :
    n.leaves = m.leaves ∧ ∀ select ∈ n.leaves, f select = g select := by
  simp only [planWith, Plan.table.injEq, List.cons.injEq, Prod.mk.injEq, true_and, and_true] at h
  have hl : n.leaves = m.leaves := by
    have hf := congrArg (List.map Prod.fst) h.2
    simpa [Function.comp_def] using hf
  rw [← hl] at h
  refine ⟨hl, fun select hs ↦ ?_⟩
  have he := List.map_inj_left.1 h.2 select hs
  exact (Prod.mk.inj he).2

/-- Two queries of one text have one plan exactly if they have the same selects or neither has any
but itself. -/
theorem ownPlan_eq_iff {n m : Normal} (h : n.full = m.full) :
    n.ownPlan = m.ownPlan ↔ n.Plain ∧ m.Plain ∨ n.leaves = m.leaves := by
  have hrest : n.leaves = m.leaves → (n.Plain ↔ m.Plain) ∧ n.rest = m.rest := by
    intro hl
    simp only [Plain, rest, hl, h, and_self]
  by_cases hn : n.Plain
  · by_cases hm : m.Plain
    · simp only [ownPlan_of_plain hn, ownPlan_of_plain hm, h, hn, hm, and_self, true_or]
    · have hl : n.leaves ≠ m.leaves := fun hl ↦ hm ((hrest hl).1.1 hn)
      simp only [ownPlan_of_plain hn, ownPlan_of_not_plain hm, planWith, hm, hl, and_false, or_self,
        reduceCtorEq]
  · by_cases hm : m.Plain
    · have hl : n.leaves ≠ m.leaves := fun hl ↦ hn ((hrest hl).1.2 hm)
      simp only [ownPlan_of_not_plain hn, ownPlan_of_plain hm, planWith, hn, hl, false_and, or_self,
        reduceCtorEq]
    · rw [ownPlan_of_not_plain hn, ownPlan_of_not_plain hm]
      constructor
      · exact fun he ↦ .inr (planWith_inj he).1
      · rintro (hp | hl)
        · exact absurd hp.1 hn
        · rw [planWith, planWith, (hrest hl).2, hl]

end Normal

namespace Cache

variable {c : Cache} {n m : Normal} {sql : String}

theorem nested_plan (c : Cache) (h : Normal.ofString sql = .ok n) :
    (c.nested n).1.plan = n.planWith c.found := by
  have hr : (n.leaves.foldl gather ⟨c, n.full, [], 0⟩).rest = n.rest := fold_gather_rest _ _
  have hp : (n.leaves.foldl gather ⟨c, n.full, [], 0⟩).plans =
      n.leaves.map fun select ↦ (select, c.found select) := by
    rw [fold_gather_plans (Normal.leaves_nodup h) (fun _ _ hk ↦ by cases hk), List.nil_append]
  have hne : n.rest ≠ innerKey := ne_innerKey (endsBare_fold_cutOut n.leaves (endsBare_full h))
  simp only [nested, hr, hp, Normal.planWith, Table.put, if_neg hne]

theorem answer_plan_of_missing (h : Normal.ofString sql = .ok n) (hl : c.lookup? n.full = none) :
    (c.answer n).1.plan = if n.Plain then .text (planText n.full) else n.planWith c.found := by
  by_cases hn : n.Plain
  · rw [answer_plain hl hn, if_pos hn]
  · rw [answer_nested hl hn, if_neg hn, nested_plan c h]

/-- A query that is not answered from the cache leaves its plan under its text and a plan under each
of its selects. -/
theorem answer_get?_of_missing (hl : c.lookup? n.full = none) (key : String) :
    (c.answer n).2.plans.get? key =
      if n.full = key then some (c.answer n).1.plan
      else if key ∈ n.leaves then some (c.found key) else c.plans.get? key := by
  by_cases hn : n.Plain
  · rw [answer_plain hl hn, store_plans, Table.get?_put]
    by_cases hk : n.full = key
    · rw [if_pos hk, if_pos hk]
    · have hm : key ∉ n.leaves := by
        obtain he | he := hn <;> simp [he, Ne.symm hk]
      rw [if_neg hk, if_neg hk, if_neg hm, miss_plans]
  · rw [answer_nested hl hn, nested, store_plans, Table.get?_put, miss_plans, fold_gather_get?]

/-- The plan with which a query is answered, or why it is not. -/
def planFor (c : Cache) (sql : String) : Except RangeError Plan :=
  (c.fetch sql).map fun r ↦ r.1.plan

theorem planFor_of_ok (h : Normal.ofString sql = .ok n) :
    c.planFor sql = .ok (c.answer n).1.plan := by
  rw [planFor, fetch_of_ok h, Except.map]

theorem planFor_of_error {e : RangeError} (h : Normal.ofString sql = .error e) :
    c.planFor sql = .error e := by
  rw [planFor, fetch_eq_error_iff.2 h, Except.map]

/-- A new cache that does not use stored plans. -/
def unused : Cache := ({} : Cache).use false

theorem found_of_lookup?_none {key : String} (h : c.lookup? key = none) :
    c.found key = .text (planText key) := by
  rw [found, h, Option.getD_none]

theorem answer_plan_of_lookup?_none (h : Normal.ofString sql = .ok n)
    (hc : c.lookup? n.full = none)
    (hl : ∀ select ∈ n.leaves, c.found select = .text (planText select)) :
    (c.answer n).1.plan = n.ownPlan := by
  rw [answer_plan_of_missing h hc, Normal.ownPlan, Normal.planWith_congr n hl]

theorem planFor_unused (h : Normal.ofString sql = .ok n) : unused.planFor sql = .ok n.ownPlan := by
  rw [planFor_of_ok h, answer_plan_of_lookup?_none h rfl fun _ _ ↦ rfl]

end Cache

/-- The normal forms of the queries that may be asked. -/
def Asked (queries : String → Prop) (n : Normal) : Prop :=
  ∃ sql, queries sql ∧ Normal.ofString sql = .ok n

/-- Whatever has been asked before, each of the queries is answered as by a cache that uses no
stored plans. -/
def Transparent (queries : String → Prop) : Prop :=
  ∀ history, (∀ sql, .query sql ∈ history → queries sql) →
    ∀ sql, queries sql → (Cache.after history).planFor sql = Cache.unused.planFor sql

/-- The texts of the queries tell their selects: queries of one text have the same selects, or
neither has one but itself, and an inner select is no other query that has selects of its own. -/
structure Coherent (queries : String → Prop) : Prop where
  same : ∀ n m, Asked queries n → Asked queries m → n.full = m.full →
    n.Plain ∧ m.Plain ∨ n.leaves = m.leaves
  inner : ∀ n m, Asked queries n → Asked queries m → m.full ∈ n.leaves → m.full ≠ n.full → m.Plain

namespace Cache

variable {queries : String → Prop} {c : Cache} {n m : Normal}

/-- Stored plans are those that the queries would get, as queries and as inner selects. -/
def Faithful (queries : String → Prop) (c : Cache) : Prop :=
  ∀ key plan, c.plans.get? key = some plan → ∀ n, Asked queries n →
    (n.full = key → plan = n.ownPlan) ∧
    (key ∈ n.leaves → key ≠ n.full → plan = .text (planText key))

theorem Faithful.found (hc : c.Faithful queries) (hn : Asked queries n)
    (hl : c.lookup? n.full = none) {select : String} (hs : select ∈ n.leaves) :
    c.found select = .text (planText select) := by
  cases h : c.lookup? select with
  | none => exact found_of_lookup?_none h
  | some plan =>
    have hne : select ≠ n.full := by
      rintro rfl
      rw [hl] at h
      cases h
    rw [Cache.found, h, Option.getD_some]
    exact (hc select plan (get?_of_lookup? h) n hn).2 hs hne

theorem Faithful.answer_plan (hc : c.Faithful queries) (hn : Asked queries n) :
    (c.answer n).1.plan = n.ownPlan := by
  obtain ⟨sql, -, h⟩ := id hn
  cases hl : c.lookup? n.full with
  | some plan =>
    rw [answer_stored hl]
    exact (hc n.full plan (get?_of_lookup? hl) n hn).1 rfl
  | none => exact answer_plan_of_lookup?_none h hl fun _ hs ↦ hc.found hn hl hs

theorem Faithful.answer (hq : Coherent queries) (hc : c.Faithful queries) (hn : Asked queries n) :
    (c.answer n).2.Faithful queries := by
  cases hl : c.lookup? n.full with
  | some plan =>
    rw [answer_stored hl]
    exact hc
  | none =>
    intro key plan hk m hm
    rw [answer_get?_of_missing hl, hc.answer_plan hn] at hk
    split at hk
    case isTrue hkey =>
      obtain rfl := Option.some.inj hk
      subst hkey
      refine ⟨fun he ↦ ?_, fun hmem hne ↦ ?_⟩
      · exact (Normal.ownPlan_eq_iff he.symm).2 (hq.same n m hn hm he.symm)
      · exact Normal.ownPlan_of_plain (hq.inner m n hm hn hmem hne)
    case isFalse hkey =>
      split at hk
      case isFalse => exact hc key plan hk m hm
      case isTrue hmem =>
        obtain rfl := Option.some.inj hk
        rw [hc.found hn hl hmem]
        refine ⟨fun he ↦ ?_, fun _ _ ↦ rfl⟩
        subst he
        exact (Normal.ownPlan_of_plain (hq.inner n m hn hm hmem (Ne.symm hkey))).symm

theorem Faithful.act (hq : Coherent queries) (hc : c.Faithful queries) (a : Action)
    (ha : ∀ sql, a = .query sql → queries sql) : (c.act a).Faithful queries := by
  cases a with
  | query sql =>
    cases h : Normal.ofString sql with
    | ok n => rw [act_query_of_ok h]; exact hc.answer hq ⟨sql, ha sql rfl, h⟩
    | error e => rw [act_query_of_error h]; exact hc
  | use enabled => exact hc
  | clear =>
    intro key plan hk
    cases hk

theorem Faithful.fold (hq : Coherent queries) (history : List Action) (hc : c.Faithful queries)
    (hh : ∀ sql, .query sql ∈ history → queries sql) :
    (history.foldl Cache.act c).Faithful queries := by
  induction history generalizing c with
  | nil => exact hc
  | cons a history ih =>
    refine ih (hc.act hq a fun sql he ↦ ?_) fun sql hs ↦ hh sql (List.mem_cons_of_mem _ hs)
    exact hh sql (he ▸ List.mem_cons_self)

end Cache

open Cache

variable {queries : String → Prop} {n m : Normal}

theorem Coherent.transparent (hq : Coherent queries) : Transparent queries := by
  intro history hh sql hs
  cases h : Normal.ofString sql with
  | error e => rw [planFor_of_error h, planFor_of_error h]
  | ok n =>
    have hc : (after history).Faithful queries :=
      Faithful.fold hq history (fun key plan hk ↦ by cases hk) hh
    rw [planFor_of_ok h, planFor_unused h, hc.answer_plan ⟨sql, hs, h⟩]

theorem answer_new_lookup? (hm : Asked queries m) (key : String) :
    (({} : Cache).answer m).2.lookup? key =
      if m.full = key then some m.ownPlan
      else if key ∈ m.leaves then some (.text (planText key)) else none := by
  obtain ⟨sql, -, h⟩ := hm
  rw [lookup?_of_enabled (answer_enabled _ m), answer_get?_of_missing rfl,
    answer_plan_of_lookup?_none h rfl fun _ _ ↦ rfl]
  rfl

theorem Transparent.second (ht : Transparent queries) (hm : Asked queries m)
    (hn : Asked queries n) : ((({} : Cache).answer m).2.answer n).1.plan = n.ownPlan := by
  obtain ⟨sql, hs, h⟩ := hm
  obtain ⟨sql', hs', h'⟩ := hn
  have he := ht [.query sql] (fun s hm ↦ by cases List.mem_singleton.1 hm; exact hs) sql' hs'
  rw [planFor_unused h', planFor_of_ok h', after, List.foldl_cons, List.foldl_nil,
    act_query_of_ok h] at he
  exact Except.ok.inj he

theorem Transparent.same (ht : Transparent queries) (hn : Asked queries n) (hm : Asked queries m)
    (he : n.full = m.full) : n.Plain ∧ m.Plain ∨ n.leaves = m.leaves := by
  have hl : (({} : Cache).answer m).2.lookup? n.full = some m.ownPlan := by
    rw [answer_new_lookup? hm, if_pos he.symm]
  have hp := ht.second hm hn
  rw [answer_stored hl] at hp
  exact (Normal.ownPlan_eq_iff he).1 hp.symm

theorem Transparent.inner (ht : Transparent queries) (hn : Asked queries n) (hm : Asked queries m)
    (hmem : m.full ∈ n.leaves) (hne : m.full ≠ n.full) : m.Plain := by
  refine Decidable.byContradiction fun hm' ↦ ?_
  have hn' : ¬n.Plain := by
    rintro (hl | hl) <;> rw [hl] at hmem
    · exact hne (List.mem_singleton.1 hmem)
    · cases hmem
  have hp := ht.second hm hn
  rw [Normal.ownPlan_of_not_plain hn'] at hp
  cases hl : (({} : Cache).answer m).2.lookup? n.full with
  | some plan =>
    -- the text of `n` is stored as an inner select of `m`, so its plan has no inner plans
    rw [answer_stored hl] at hp
    rw [answer_new_lookup? hm, if_neg hne] at hl
    split at hl
    · cases hl; cases hp
    · cases hl
  | none =>
    obtain ⟨sql, -, h⟩ := hn
    rw [answer_plan_of_missing h hl, if_neg hn'] at hp
    have hf := (Normal.planWith_inj hp).2 m.full hmem
    rw [found, answer_new_lookup? hm, if_pos rfl, Option.getD_some,
      Normal.ownPlan_of_not_plain hm'] at hf
    cases hf

/-- Queries are answered after any history as if nothing had been stored exactly if the texts under
which they are stored tell their selects. -/
theorem transparent_iff_coherent (queries : String → Prop) :
    Transparent queries ↔ Coherent queries := by
  constructor
  · intro ht
    exact ⟨fun n m hn hm ↦ ht.same hn hm, fun n m hn hm ↦ ht.inner hn hm⟩
  · exact Coherent.transparent

-- Evaluated together, the two scripts share what the parser foresees.
theorem parsed_starColumns :
    parsed #[.SELECT, .star, .eof] = (.select 1 [.starColumn 1], 2) ∧
      parsed #[.SELECT, .star, .comma, .star, .eof] =
        (.select 3 [.starColumn 1, .leaf (.read 2) false, .starColumn 3], 4) := by
  decide +kernel

theorem parsed_star : parsed #[.SELECT, .star, .eof] = (.select 1 [.starColumn 1], 2) :=
  parsed_starColumns.1

theorem parsed_stars : parsed #[.SELECT, .star, .comma, .star, .eof] =
    (.select 3 [.starColumn 1, .leaf (.read 2) false, .starColumn 3], 4) :=
  parsed_starColumns.2

theorem scan_comments :
    Token.scan "SELECT *--\n,*" = [⟨.SELECT, "SELECT", 1, 0, 0, 6⟩, ⟨.blank, " ", 1, 6, 6, 1⟩,
        ⟨.star, "*", 1, 7, 7, 1⟩, ⟨.lineComment, "--\n", 1, 8, 8, 3⟩, ⟨.comma, ",", 2, 0, 11, 1⟩,
        ⟨.star, "*", 2, 1, 12, 1⟩, ⟨.eof, "<EOF>", 2, 2, 13, 0⟩] ∧
      Token.scan "SELECT * -- , *" = [⟨.SELECT, "SELECT", 1, 0, 0, 6⟩, ⟨.blank, " ", 1, 6, 6, 1⟩,
        ⟨.star, "*", 1, 7, 7, 1⟩, ⟨.blank, " ", 1, 8, 8, 1⟩, ⟨.lineComment, "-- , *", 1, 9, 9, 6⟩,
        ⟨.eof, "<EOF>", 1, 15, 15, 0⟩] ∧
      Token.scan "SELECT *-- , *" = [⟨.SELECT, "SELECT", 1, 0, 0, 6⟩, ⟨.blank, " ", 1, 6, 6, 1⟩,
        ⟨.star, "*", 1, 7, 7, 1⟩, ⟨.lineComment, "-- , *", 1, 8, 8, 6⟩,
        ⟨.eof, "<EOF>", 1, 14, 14, 0⟩] ∧
      Token.scan "SELECT *" = [⟨.SELECT, "SELECT", 1, 0, 0, 6⟩, ⟨.blank, " ", 1, 6, 6, 1⟩,
        ⟨.star, "*", 1, 7, 7, 1⟩, ⟨.eof, "<EOF>", 1, 8, 8, 0⟩] := by
  decide +kernel

theorem scan_star : Token.scan "SELECT *" = [⟨.SELECT, "SELECT", 1, 0, 0, 6⟩,
    ⟨.blank, " ", 1, 6, 6, 1⟩, ⟨.star, "*", 1, 7, 7, 1⟩, ⟨.eof, "<EOF>", 1, 8, 8, 0⟩] :=
  scan_comments.2.2.2

/-- With its line break gone, a comment takes in what followed it: two queries with different
selects get one text. -/
theorem ofString_comments :
    (Normal.ofString "SELECT *--\n,*").toOption =
        some ⟨"SELECT * -- , *", ["SELECT * -- , *"], "SELECT * -- , *", []⟩ ∧
      (Normal.ofString "SELECT *-- , *").toOption =
        some ⟨"SELECT * -- , *", ["SELECT *"], "SELECT * -- , *", []⟩ := by
  obtain ⟨h₁, h₂, h₃, h₄⟩ := scan_comments
  have hb₁ := Buffer.ofString_of_scan h₁ rfl parsed_stars
  have hb₂ := Buffer.ofString_of_scan h₂ rfl parsed_star
  have hb₃ := Buffer.ofString_of_scan h₃ rfl parsed_star
  have hb₄ := Buffer.ofString_of_scan h₄ rfl parsed_star
  constructor
  · exact Normal.ofString_of_query "SELECT * -- , *" hb₁ hb₂ (by decide +kernel)
      (by decide +kernel) (by decide +kernel)
  · exact Normal.ofString_of_query "SELECT *" hb₃ hb₄ (by decide +kernel) (by decide +kernel)
      (by decide +kernel)

theorem not_transparent_of_comments :
    (after [.query "SELECT *--\n,*"]).planFor "SELECT *-- , *" ≠
      unused.planFor "SELECT *-- , *" := by
  have hm := eq_ok_of_toOption ofString_comments.1
  have hn := eq_ok_of_toOption ofString_comments.2
  have ha : Asked (fun _ ↦ True) _ := ⟨_, trivial, hm⟩
  have hl := answer_new_lookup? ha "SELECT * -- , *"
  rw [if_pos rfl] at hl
  rw [planFor_of_ok hn, planFor_unused hn, after, List.foldl_cons, List.foldl_nil,
    act_query_of_ok hm, answer_stored hl]
  intro he
  dsimp only at he
  rw [Except.ok.injEq, Normal.ownPlan_eq_iff (by rfl)] at he
  revert he
  decide

end PlanCache
