import PlanCache.Proofs.Foresight
import PlanCache.Proofs.Moves

/-!
Runs in which nothing is reported. Reports are never taken back, so in such a run each token has
been read as expected, each choice has fallen on one of its sequences, and no rule has been broken
off.
-/

namespace PlanCache

namespace Atlas

open Configs

variable {a : Atlas} {d : Decision} {kinds : Array Kind} {pos level alt : Nat} {stack : List Site}

theorem start_alt (full : Bool) (guards : Guards) (calls : Stacks) :
    ∀ c ∈ (a.start full guards calls d).list, ∃ parts, (parts, c.alt) ∈ d.alternatives.zipIdx 1 := by
  let P : Config → Prop := fun c ↦ ∃ parts, (parts, c.alt) ∈ d.alternatives.zipIdx 1
  have hjoin : Joinable P := fun _ _ _ _ hd _ ↦ hd
  refine List.foldlRecOn _ _ (motive := fun m ↦ ∀ c ∈ Configs.list m, P c)
    (fun c hc ↦ absurd hc not_mem_list_empty) fun m hm e he ↦ ?_
  refine List.foldlRecOn _ _ (motive := fun m ↦ ∀ c ∈ Configs.list m, P c) hm fun m hm s _ ↦ ?_
  exact forall_add hjoin ⟨e.1, he⟩ hm

theorem admitOperators_alt {m : Configs} {c : Config} (hc : c ∈ (m.admitOperators level).list) :
    ∃ c' ∈ m.list, c'.alt = c.alt := by
  obtain ⟨place, cs, hcs, hc⟩ := mem_list.1 hc
  rw [admitOperators, Std.TreeMap.getElem?_filterMap'] at hcs
  obtain ⟨old, hold, hcs⟩ := Option.bind_eq_some_iff.1 hcs
  dsimp only at hcs
  split at hcs
  · cases hcs
  · obtain rfl := Option.some.inj hcs
    rcases List.mem_append.1 hc with hc | hc
    · obtain ⟨c', hc', rfl⟩ := List.mem_map.1 hc
      exact ⟨c', mem_list.2 ⟨place, old, hold, (List.mem_filter.1 hc').1⟩, rfl⟩
    · exact ⟨c, mem_list.2 ⟨place, old, hold, (List.mem_filter.1 hc).1⟩, rfl⟩

theorem getElem?_of_survives {m : Configs} {k : Kind}
    (hm : ∀ c ∈ m.list, ∃ parts, (parts, c.alt) ∈ d.alternatives.zipIdx 1)
    (h : Survives k m alt) : ∃ parts, d.alternatives[alt - 1]? = some parts := by
  obtain ⟨c, hc, rfl, -⟩ := h
  obtain ⟨parts, hparts⟩ := hm c hc
  exact ⟨parts, (List.mk_mem_zipIdx_iff_le_and_getElem?_sub.1 hparts).2⟩

theorem getElem?_of_predict (h : (a.predict kinds pos level stack d).verdict = .read alt) :
    ∃ parts, d.alternatives[alt - 1]? = some parts := by
  unfold predict at h
  dsimp only at h
  split at h
  · exact getElem?_of_survives (start_alt _ _ _) (followOpen_survives _ _ _ h)
  · refine getElem?_of_survives (fun c hc ↦ ?_) (followAny_survives _ _ _ h)
    split at hc
    · obtain ⟨c', hc', halt⟩ := admitOperators_alt hc
      rw [← halt]
      exact start_alt _ _ _ c' hc'
    · exact start_alt _ _ _ c hc

theorem length_of_oneToken? {g : Grammar} {sets : List KindSet} (h : g.oneToken? d = some sets) :
    sets.length = d.alternatives.length := by
  unfold Grammar.oneToken? at h
  dsimp only at h
  split at h
  · obtain rfl := Option.some.inj h
    simp
  · cases h

/-- What is chosen is one of the sequences. -/
theorem getElem?_of_choose
    (hother : ∀ n, d.otherwise = some n → ∃ parts, d.alternatives[n - 1]? = some parts)
    (h : (a.choose kinds pos level stack d).verdict = .read alt) :
    ∃ parts, d.alternatives[alt - 1]? = some parts := by
  unfold choose at h
  split at h
  · rename_i sets hsets
    split at h
    · rename_i i hi
      obtain rfl : i + 1 = alt := Verdict.read.inj h
      have hlt := (List.findIdx?_eq_some_iff_getElem.1 hi).1
      rw [length_of_oneToken? hsets] at hlt
      exact ⟨_, List.getElem?_eq_getElem hlt⟩
    · rename_i n _ hn
      obtain rfl : n = alt := Verdict.read.inj h
      exact hother n hn
    · cases h
  · exact getElem?_of_predict h

theorem followOpen_ne_unclear (n i : Nat) (m : Configs) :
    (a.followOpen kinds level n i m).verdict ≠ .unclear := by
  induction n generalizing i m with
  | zero => nofun
  | succ n ih =>
    unfold followOpen
    dsimp only
    repeat' split
    all_goals first | exact ih _ _ | nofun

theorem choose_ne_unclear : (a.choose kinds pos level stack d).verdict ≠ .unclear := by
  unfold choose
  split
  · split <;> nofun
  · unfold predict
    dsimp only
    split
    · exact followOpen_ne_unclear _ _ _
    · assumption

end Atlas

namespace Session

variable {a : Atlas} {g : Grammar} {input : Input} {s t : Session}

theorem Quiet.trans {u : Session} (h : Quiet s t) (h' : Quiet t u) : Quiet s u where
  pos := h'.pos.trans h.pos
  seen := Nat.le_trans h.seen h'.seen
  recovering := h'.recovering.trans h.recovering
  rule := h'.rule.trans h.rule
  start := h'.start.trans h.start
  children := h'.children.trans h.children
  reports := h'.reports.trans h.reports
  events := h'.events.trans h.events

namespace Moves

theorem rule (h : Moves input s t) : t.draft.rule = s.draft.rule := by
  induction h with
  | trans _ _ ih₁ ih₂ => exact ih₂.trans ih₁
  | quiet h => exact h.rule
  | report s r =>
    unfold Session.report
    split <;> rfl
  | fault s f =>
    unfold reportFault Session.report
    repeat' split
    all_goals rfl
  | settle | consume | supply | exit | wrap => rfl
  | call r site label => cases label <;> rfl

/-- Reports are not taken back. -/
theorem reports_eq_nil (h : Moves input s t) (ht : t.reports = []) : s.reports = [] := by
  induction h with
  | trans _ _ ih₁ ih₂ => exact ih₁ (ih₂ ht)
  | quiet h => exact h.reports.symm.trans ht
  | report s r =>
    unfold Session.report at ht
    split at ht
    · exact ht
    · cases ht
  | fault s f =>
    have hreport : ∀ r, (s.report r).reports = [] → s.reports = [] := by
      intro r hr
      unfold Session.report at hr
      split at hr
      · exact hr
      · cases hr
    unfold reportFault at ht
    split at ht
    · exact hreport _ ht
    · dsimp only at ht
      split at ht <;> exact hreport _ ht
    · exact hreport _ ht
    · exact ht
  | settle | consume | supply | exit | wrap => exact ht
  | call r site label _ ih => exact ih ht

/-- Recovery follows a report. -/
theorem reports_ne_nil (h : Moves input s t) (hs : s.recovering = true → s.reports ≠ [])
    (ht : t.recovering = true) : t.reports ≠ [] := by
  induction h with
  | trans _ _ ih₁ ih₂ => exact ih₂ (ih₁ hs) ht
  | quiet h =>
    rw [h.reports]
    exact hs (h.recovering.symm.trans ht)
  | settle => cases ht
  | report s r =>
    unfold Session.report at ht ⊢
    split
    · exact hs ‹_›
    · simp
  | fault s f =>
    have hreport : ∀ r, (s.report r).reports ≠ [] := by
      intro r
      unfold Session.report
      split
      · exact hs ‹_›
      · simp
    unfold reportFault at ht ⊢
    split
    · exact hreport _
    · dsimp only
      split <;> exact hreport _
    · exact hreport _
    · exact hs ht
  | consume | supply | exit | wrap => exact hs ht
  | call r site label _ ih => exact ih hs ht

theorem not_recovering (h : Moves input s t) (hs : s.recovering = false) (ht : t.reports = []) :
    t.recovering = false := by
  cases hrec : t.recovering with
  | false => rfl
  | true => exact absurd ht (h.reports_ne_nil (by simp [hs]) hrec)

end Moves

theorem reports_report_ne_nil {r : SyntaxError} (hs : s.recovering = false) :
    (s.report r).reports ≠ [] := by
  simp [report, hs]

theorem reports_reportFault_ne_nil {f : Fault} (hf : f ≠ .exhausted) (hs : s.recovering = false) :
    (s.reportFault input f).reports ≠ [] := by
  cases f with
  | mismatch => exact reports_report_ne_nil hs
  | level => exact reports_report_ne_nil hs
  | exhausted => exact absurd rfl hf
  | noViable =>
    unfold reportFault
    dsimp only
    split <;> exact reports_report_ne_nil hs

/-- A fault is reported, unless it is that no steps are left. -/
theorem reports_mend_ne_nil {f : Fault} (hf : f ≠ .exhausted) (hs : s.recovering = false) :
    (mend g input (s, some f)).reports ≠ [] := by
  intro hnil
  have hmend : mend g input (s, some f) = (s.reportFault input f).recover g input := by
    cases f <;> first | rfl | exact absurd rfl hf
  rw [hmend] at hnil
  exact reports_reportFault_ne_nil hf hs ((Moves.recover g _).reports_eq_nil hnil)

theorem deleteToken?_eq_false {kinds : KindSet} (hs : s.recovering = false)
    (hnil : (s.deleteToken? input kinds).1.reports = []) :
    s.deleteToken? input kinds = (s.lookAt input (s.pos + 1), false) := by
  unfold deleteToken? at hnil ⊢
  dsimp only at hnil ⊢
  split
  · rename_i h
    rw [if_pos h] at hnil
    have hrec : (s.lookAt input (s.pos + 1)).recovering = false := hs
    exact absurd hnil (reports_report_ne_nil hrec)
  · rfl

/-- A rule has been broken off, and not because no steps are left. -/
def Breaks (o : Session × Option Fault) : Prop :=
  o.1.recovering = false ∧ ∃ f, f ≠ .exhausted ∧ o.2 = some f

theorem Breaks.exists_eq {o : Session × Option Fault} (h : Breaks o) : ∃ t f, o = (t, some f) := by
  obtain ⟨-, f, -, ho⟩ := h
  exact ⟨o.1, f, Prod.ext rfl ho⟩

theorem Breaks.reports_ne_nil {f : Fault} (h : Breaks (s, some f)) :
    (mend g input (s, some f)).reports ≠ [] := by
  obtain ⟨hrec, f', hf, ho⟩ := h
  obtain rfl : f = f' := Option.some.inj ho
  exact reports_mend_ne_nil hf hrec

/-- The token that is read before a sequence without any report is one of those expected. -/
theorem expect_cases {place : Place} {kinds : KindSet} {single : Bool} {label : Option Label}
    {rest : List Part} (hs : s.recovering = false)
    (hnil : (s.expect g input place kinds single label rest).1.reports = []) :
    Breaks (s.expect g input place kinds single label rest) ∨
      kinds.contains (input.kind s.pos) = true ∧
        ∃ t, s.expect g input place kinds single label rest = (t, none) ∧
          Quiet (s.settle.consume input) t := by
  unfold expect at hnil ⊢
  dsimp only at hnil ⊢
  split
  · rename_i h
    have hplace : Quiet (s.settle.consume input) (({ s with place } : Session).settle.consume input) :=
      ⟨rfl, Nat.le_refl _, rfl, rfl, rfl, rfl, rfl, rfl⟩
    exact .inr ⟨h, _, rfl, hplace.trans (.markLast label _)⟩
  · rename_i h
    rw [if_neg h] at hnil
    left
    generalize hu : (if single then { s with place } else
      { s with place, draft := s.draft.markLeaf label (.read s.pos) }) = u at hnil ⊢
    have hrec : u.recovering = false := by
      rw [← hu]
      split <;> exact hs
    have hdel : (u.deleteToken? input kinds).1.reports = [] := by
      generalize u.deleteToken? input kinds = o at hnil
      obtain ⟨v, b⟩ := o
      cases b with
      | true => exact hnil
      | false =>
        dsimp only at hnil ⊢
        split at hnil
        · have hreport : Moves input v (v.report (.missing v.pos kinds)) := .report v _ (by simp)
          exact hreport.reports_eq_nil hnil
        · exact hnil
    rw [deleteToken?_eq_false hrec hdel] at hnil ⊢
    dsimp only at hnil ⊢
    split
    · rename_i hk
      rw [if_pos hk] at hnil
      exact absurd hnil (reports_report_ne_nil (s := u.lookAt input (u.pos + 1)) hrec)
    · exact ⟨hrec, _, by simp, rfl⟩

theorem sync_cases {place : Place} {again : Bool} {parts : List Part} (hs : s.recovering = false)
    (hnil : (s.sync g input place again parts).1.reports = []) :
    Breaks (s.sync g input place again parts) ∨
      s.sync g input place again parts = ({ s with place }, none) := by
  unfold sync at hnil ⊢
  dsimp only at hnil ⊢
  rw [if_neg (by simp [hs])] at hnil ⊢
  split
  · exact .inr rfl
  · rename_i hnext
    rw [if_neg hnext] at hnil
    left
    have hrec : ({ s with place } : Session).recovering = false := hs
    split
    · rename_i hagain
      rw [if_pos hagain] at hnil
      have hreport := (Moves.consumeUntil _ _ _).reports_eq_nil hnil
      exact absurd hreport (reports_report_ne_nil hrec)
    · rename_i hagain
      rw [if_neg hagain] at hnil
      have hdel : (({ s with place } : Session).deleteToken? input
          (g.expected parts s.stack)).1.reports = [] := by
        generalize Session.deleteToken? input _ _ = o at hnil
        obtain ⟨v, b⟩ := o
        cases b <;> exact hnil
      rw [deleteToken?_eq_false hrec hdel]
      exact ⟨hrec, _, by simp, rfl⟩

/-- A choice falls on one of the sequences or breaks off the rule. -/
theorem pick_cases (a : Atlas) (input : Input) (s : Session) {d : Decision}
    (hother : ∀ n, d.otherwise = some n → ∃ parts, d.alternatives[n - 1]? = some parts) :
    ∃ t, Quiet s t ∧ ((∃ f, f ≠ .exhausted ∧ s.pick a input d = (t, .error f)) ∨
      ∃ alt parts, s.pick a input d = (t, .ok alt) ∧ d.alternatives[alt - 1]? = some parts) := by
  unfold pick
  dsimp only
  refine ⟨_, .lookAt input (a.choose input s.pos s.level s.stack d).seen s, ?_⟩
  split
  · rename_i alt halt
    obtain ⟨parts, hparts⟩ := Atlas.getElem?_of_choose hother halt
    exact .inr ⟨alt, parts, rfl, hparts⟩
  · exact .inl ⟨_, by simp, rfl⟩
  · rename_i hunclear
    exact absurd hunclear Atlas.choose_ne_unclear

theorem branch_cases {place : Place} {again : Bool} {parts : List Part} {d : Decision}
    (hother : ∀ n, d.otherwise = some n → ∃ parts, d.alternatives[n - 1]? = some parts)
    (hs : s.recovering = false)
    (hnil : (s.branch a input place again parts d).1.reports = []) :
    (∃ t f, s.branch a input place again parts d = (t, .error f) ∧ Breaks (t, some f)) ∨
      ∃ t, Quiet s t ∧ ∃ next ∈ d.alternatives,
        s.branch a input place again parts d = (t, .ok next) := by
  have hsync : (s.sync a.grammar input place again parts).1.reports = [] := by
    unfold branch at hnil
    split at hnil <;> rename_i hu <;> rw [hu]
    · exact hnil
    · exact ((Moves.pick a d _).trans (Moves.turn _ _)).reports_eq_nil hnil
  unfold branch
  rcases sync_cases hs hsync with ⟨hrec, f, hf, ho⟩ | ho
  · left
    generalize s.sync a.grammar input place again parts = o at ho hrec ⊢
    obtain ⟨t, f'⟩ := o
    obtain rfl : f' = some f := ho
    exact ⟨t, f, rfl, hrec, f, hf, rfl⟩
  · rw [ho]
    dsimp only
    obtain ⟨t, hq, ⟨f, hf, hp⟩ | ⟨alt, next, hp, halt⟩⟩ :=
      pick_cases a input { s with place } hother
    · left
      rw [hp]
      exact ⟨t, f, rfl, hq.recovering.trans hs, f, hf, rfl⟩
    · right
      rw [hp, turn, halt]
      exact ⟨t, (Quiet.at_place place s).trans hq, next, List.mem_of_getElem? halt, rfl⟩

end Session

end PlanCache
