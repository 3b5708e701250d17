import PlanCache.Parse.Predict

/-!
Prediction never chooses a sequence at random: one that is chosen by reading ahead could read the
next token, or could be read to the end of its rule without it.
-/

namespace PlanCache

namespace Configs

variable {wild : Bool} {m : Configs} {c d : Config}

theorem mem_foldl_append {α β : Type _} (f : α → List β) (l : List (Nat × α)) (acc : List β)
    (b : β) :
    b ∈ l.foldl (fun acc e ↦ f e.2 ++ acc) acc ↔ b ∈ acc ∨ ∃ e ∈ l, b ∈ f e.2 := by
  induction l generalizing acc with
  | nil => simp
  | cons e l ih =>
    rw [List.foldl_cons, ih, List.mem_append]
    simp only [List.mem_cons, exists_eq_or_imp]
    rw [or_comm (a := b ∈ f e.2), or_assoc]

/-- What is collected from the configurations of all places. -/
theorem mem_foldl_iff {β : Type _} (f : List Config → List β) (b : β) :
    b ∈ m.foldl (fun acc _ cs ↦ f cs ++ acc) [] ↔
      ∃ (place : Nat) (cs : List Config), m[place]? = some cs ∧ b ∈ f cs := by
  rw [Std.TreeMap.foldl_eq_foldl_toList, mem_foldl_append]
  simp only [List.not_mem_nil, false_or, Prod.exists, Std.TreeMap.mem_toList_iff_getElem?_eq_some]

theorem mem_list :
    c ∈ m.list ↔ ∃ (place : Nat) (cs : List Config), m[place]? = some cs ∧ c ∈ cs :=
  mem_foldl_iff id c

theorem not_mem_list_empty : c ∉ (∅ : Configs).list := by
  simp [mem_list]

/-- Joining two configurations of one sequence keeps what `P` says. -/
def Joinable (P : Config → Prop) : Prop :=
  ∀ c d calls, P c → P d → d.alt = c.alt →
    P { d with spot := { d.spot with
      calls, outer := d.spot.outer || c.spot.outer, apart := d.spot.apart || c.spot.apart } }

variable {P : Config → Prop}

theorem forall_insertInto (hP : Joinable P) (hc : P c) {cs : List Config} (h : ∀ d ∈ cs, P d) :
    ∀ d ∈ insertInto wild c cs, P d := by
  induction cs with
  | nil => simpa [insertInto] using hc
  | cons e cs ih =>
    have he := h e List.mem_cons_self
    have hcs : ∀ d ∈ cs, P d := fun d hd ↦ h d (List.mem_cons_of_mem _ hd)
    unfold insertInto
    split
    case isTrue hj =>
      have halt : e.alt = c.alt := by simpa using (Bool.and_eq_true_iff.1 hj).1
      exact List.forall_mem_cons.2 ⟨hP c e _ hc he halt, hcs⟩
    case isFalse => exact List.forall_mem_cons.2 ⟨he, ih hcs⟩

theorem forall_add (hP : Joinable P) (hc : P c) (h : ∀ d ∈ m.list, P d) :
    ∀ d ∈ (m.add wild c).list, P d := by
  intro d hd
  obtain ⟨place, cs, hcs, hd⟩ := mem_list.1 hd
  rw [add, Std.TreeMap.getElem?_alter] at hcs
  split at hcs
  case isFalse => exact h d (mem_list.2 ⟨place, cs, hcs, hd⟩)
  case isTrue =>
    split at hcs
    case h_1 =>
      obtain rfl := Option.some.inj hcs
      rw [List.mem_singleton.1 hd]
      exact hc
    case h_2 old hold =>
      obtain rfl := Option.some.inj hcs
      exact forall_insertInto hP hc (fun e he ↦ h e (mem_list.2 ⟨_, old, hold, he⟩)) d hd

theorem forall_foldl_add (hP : Joinable P) {cs : List Config} (hcs : ∀ c ∈ cs, P c)
    (h : ∀ d ∈ m.list, P d) : ∀ d ∈ (cs.foldl (add wild) m).list, P d := by
  induction cs generalizing m with
  | nil => exact h
  | cons c cs ih =>
    obtain ⟨hc, hcs⟩ := List.forall_mem_cons.1 hcs
    exact ih hcs (forall_add hP hc h)

theorem onlyOne_mem {ns : List Nat} {n : Nat} (h : onlyOne ns = some n) : n ∈ ns := by
  unfold onlyOne at h
  split at h
  · cases h
  · split at h
    · cases h; exact List.mem_cons_self
    · cases h

theorem foldl_min_mem (ns : List Nat) (n : Nat) : ns.foldl min n = n ∨ ns.foldl min n ∈ ns := by
  induction ns generalizing n with
  | nil => exact .inl rfl
  | cons k ns ih =>
    rw [List.foldl_cons, List.mem_cons]
    obtain h | h := ih (min n k)
    · rw [h]
      omega
    · exact .inr (.inr h)

theorem least_mem {ns : List Nat} {n : Nat} (h : least ns = some n) : n ∈ ns := by
  unfold least at h
  split at h
  · cases h
  · cases h
    exact List.mem_cons.2 (foldl_min_mem _ _)

theorem unique_mem {alt : Nat} (h : m.unique = some alt) : ∃ c ∈ m.list, c.alt = alt := by
  obtain ⟨place, cs, hcs, hm⟩ := (mem_foldl_iff _ _).1 (onlyOne_mem h)
  obtain ⟨c, hc, rfl⟩ := List.mem_map.1 hm
  exact ⟨c, mem_list.2 ⟨place, cs, hcs, hc⟩, rfl⟩

theorem fallback_mem {level alt : Nat} (h : m.fallback level = some alt) :
    ∃ c ∈ m.list, c.alt = alt ∧ c.finished = true := by
  have hsome : ∀ p : Config → Bool,
      least (((m.list.filter Config.finished).filter p).map Config.alt) = some alt →
      ∃ c ∈ m.list, c.alt = alt ∧ c.finished = true := by
    intro p hl
    obtain ⟨c, hc, rfl⟩ := List.mem_map.1 (least_mem hl)
    have hc' := List.mem_filter.1 (List.mem_filter.1 hc).1
    exact ⟨c, hc'.1, rfl, hc'.2⟩
  unfold fallback at h
  dsimp only at h
  split at h
  case h_1 hl => cases h; exact hsome _ hl
  case h_2 => exact hsome _ h

theorem insert_groups_mem {gs : List (Stacks × Nat)} {n : Nat}
    (h : n ∈ (leastOfGroups.insert c gs).map (·.2)) : n = c.alt ∨ n ∈ gs.map (·.2) := by
  induction gs with
  | nil => simpa [leastOfGroups.insert] using h
  | cons g gs ih =>
    unfold leastOfGroups.insert at h
    split at h
    case isTrue =>
      simp only [List.map_cons, List.mem_cons] at h ⊢
      obtain h | h := h
      · omega
      · exact .inr (.inr h)
    case isFalse =>
      simp only [List.map_cons, List.mem_cons] at h ⊢
      obtain h | h := h
      · exact .inr (.inl h)
      · exact (ih h).imp_right .inr

theorem leastOfGroups_mem {cs : List Config} {gs : List (Stacks × Nat)} {n : Nat}
    (h : n ∈ (leastOfGroups cs gs).map (·.2)) : (∃ c ∈ cs, c.alt = n) ∨ n ∈ gs.map (·.2) := by
  induction cs generalizing gs with
  | nil => exact .inr h
  | cons c cs ih =>
    obtain ⟨d, hd, he⟩ | h := ih h
    · exact .inl ⟨d, List.mem_cons_of_mem _ hd, he⟩
    · exact (insert_groups_mem h).imp_left fun he ↦ ⟨c, List.mem_cons_self, he.symm⟩

theorem agreed_mem {alt : Nat} (h : m.agreed = some alt) : ∃ c ∈ m.list, c.alt = alt := by
  unfold agreed at h
  obtain ⟨place, cs, hcs, hm⟩ :=
    (mem_foldl_iff (fun cs ↦ (leastOfGroups cs []).map Prod.snd) alt).1 (onlyOne_mem h)
  obtain ⟨c, hc, he⟩ | hm := leastOfGroups_mem hm
  · exact ⟨c, mem_list.2 ⟨place, cs, hcs, hc⟩, he⟩
  · cases hm

theorem mem_list_of_filter {f : Nat → List Config → Bool}
    (h : c ∈ Configs.list (m.filter f)) : c ∈ m.list := by
  obtain ⟨place, cs, hcs, hc⟩ := mem_list.1 h
  rw [Std.TreeMap.getElem?_filter'] at hcs
  exact mem_list.2 ⟨place, cs, (Option.filter_eq_some_iff.1 hcs).1, hc⟩

end Configs

namespace Atlas

open Configs

variable {a : Atlas} {full : Bool} {k : Kind} {m : Configs} {c : Config}

/-- A configuration of the same sequence could read the token or is at an end. -/
def Survives (k : Kind) (m : Configs) (alt : Nat) : Prop :=
  ∃ c ∈ m.list, c.alt = alt ∧ (c.accepts k = true ∨ c.finished = true)

theorem joinable_survives (k : Kind) (m : Configs) : Joinable fun c ↦ Survives k m c.alt :=
  fun _ _ _ _ hd _ ↦ hd

theorem advance_survives {moved : List Config} (h : ∀ c ∈ moved, Survives k m c.alt) :
    ∀ c ∈ (a.advance full moved).list, Survives k m c.alt := by
  refine List.foldlRecOn _ _ (motive := fun m' ↦ ∀ c ∈ Configs.list m', Survives k m c.alt)
    (fun c hc ↦ absurd hc not_mem_list_empty) fun m' hm' c hc ↦ ?_
  refine List.foldlRecOn _ _ (motive := fun m' ↦ ∀ c ∈ Configs.list m', Survives k m c.alt)
    hm' fun m' hm' s _ ↦ ?_
  exact forall_add (joinable_survives k m) (h c hc) hm'

theorem reach_survives : ∀ c ∈ (a.reach full k m).list, Survives k m c.alt := by
  have hmoved : ∀ c ∈ m.list.filter (·.accepts k), Survives k m c.alt := by
    intro c hc
    obtain ⟨hc, ha⟩ := List.mem_filter.1 hc
    exact ⟨c, hc, rfl, .inl ha⟩
  have hended : ∀ c ∈ (if full || k == .eof then m.list.filter Config.atEnd else []),
      Survives k m c.alt := by
    intro c hc
    split at hc
    · obtain ⟨hc, ha⟩ := List.mem_filter.1 hc
      exact ⟨c, hc, rfl, .inr (Bool.or_eq_true_iff.2 (.inr ha))⟩
    · cases hc
  have hnext : ∀ c ∈ Configs.list (if k == .eof then
      (a.advance full (m.list.filter (·.accepts k))).filter fun _ cs ↦ cs.all Config.atEnd
      else a.advance full (m.list.filter (·.accepts k))), Survives k m c.alt := by
    intro c hc
    split at hc
    · exact advance_survives hmoved c (mem_list_of_filter hc)
    · exact advance_survives hmoved c hc
  unfold reach
  dsimp only
  generalize (if full || k == .eof then m.list.filter Config.atEnd else []) = ended at hended ⊢
  generalize (if k == .eof then
      (a.advance full (m.list.filter (·.accepts k))).filter fun _ cs ↦ cs.all Config.atEnd
      else a.advance full (m.list.filter (·.accepts k))) = next at hnext ⊢
  split
  · exact forall_foldl_add (joinable_survives k m) hmoved fun c hc ↦ absurd hc not_mem_list_empty
  · split
    · exact hnext
    · exact forall_foldl_add (joinable_survives k m) hended hnext

variable {kinds : Array Kind} {level first : Nat}

theorem followAny_survives (n i : Nat) (m : Configs) {alt : Nat}
    (h : (a.followAny kinds level first n i m).verdict = .read alt) :
    Survives (kinds.getD i .eof) m alt := by
  induction n generalizing i m with
  | zero => cases h
  | succ n ih =>
    have hreach : ∀ c ∈ (a.reach false (kinds.getD i .eof) m).list,
        Survives (kinds.getD i .eof) m c.alt := reach_survives
    unfold followAny at h
    dsimp only at h
    generalize a.reach false (kinds.getD i .eof) m = next at h hreach
    split at h
    case isTrue =>
      split at h
      case h_1 hf =>
        cases h
        obtain ⟨c, hc, he, hd⟩ := fallback_mem hf
        exact ⟨c, hc, he, .inr hd⟩
      case h_2 => cases h
    case isFalse =>
      split at h
      case h_1 hu =>
        split at h
        · cases h
          obtain ⟨c, hc, rfl⟩ := unique_mem hu
          exact hreach c hc
        · cases h
      case h_2 =>
        split at h
        case isTrue =>
          split at h
          case h_1 ho =>
            cases h
            obtain ⟨c, hc, rfl⟩ := List.mem_map.1 (onlyOne_mem ho)
            exact hreach c (List.mem_filter.1 hc).1
          case h_2 => cases h
        case isFalse =>
          obtain ⟨c, hc, rfl, -⟩ := ih (i + 1) next h
          exact hreach c hc

theorem followOpen_survives (n i : Nat) (m : Configs) {alt : Nat}
    (h : (a.followOpen kinds level n i m).verdict = .read alt) :
    Survives (kinds.getD i .eof) m alt := by
  induction n generalizing i m with
  | zero => cases h
  | succ n ih =>
    have hreach : ∀ c ∈ (a.reach true (kinds.getD i .eof) m).list,
        Survives (kinds.getD i .eof) m c.alt := reach_survives
    unfold followOpen at h
    dsimp only at h
    generalize a.reach true (kinds.getD i .eof) m = next at h hreach
    split at h
    case isTrue =>
      split at h
      case h_1 hf =>
        cases h
        obtain ⟨c, hc, he, hd⟩ := fallback_mem hf
        exact ⟨c, hc, he, .inr hd⟩
      case h_2 => cases h
    case isFalse =>
      split at h
      case h_1 hu =>
        cases h
        obtain ⟨c, hc, rfl⟩ := unique_mem hu
        exact hreach c hc
      case h_2 =>
        split at h
        case h_1 ha =>
          cases h
          obtain ⟨c, hc, rfl⟩ := agreed_mem ha
          exact hreach c hc
        case h_2 =>
          obtain ⟨c, hc, rfl, -⟩ := ih (i + 1) next h
          exact hreach c hc

end Atlas

/-- A rule that reads one token, of any of these kinds. -/
structure Grammar.ReadsOneOf (g : Grammar) (r : Rule) (ks : KindSet) : Prop where
  body : ∃ p, g.body r = [.oneOf p ks none]
  first : g.first r = ⟨ks, false, false⟩

namespace Grammar.ReadsOneOf

variable {g : Grammar} {r : Rule} {ks : KindSet} (p : Place) (lv : Nat) (t : Bool)
  (l : Option Label) (rest : List Part)

theorem look (h : g.ReadsOneOf r ks) : g.look (.call p r lv t l :: rest) = ⟨ks, false, false⟩ := by
  simp only [Grammar.look, lookSeq, Part.look, h.first, Bool.false_eq_true, if_false]

theorem descend (h : g.ReadsOneOf r ks) (n : Nat) (guards : Guards) (level : Option Nat)
    (calls : Stacks) (found : List Spot × Bool) :
    ∃ q, g.descend (n + 2) guards level calls (.call p r lv t l :: rest) found =
      (⟨q, [.oneOf q ks none], .push ⟨p, rest, lv, t⟩ calls .nil, level, false, false⟩ :: found.1,
        found.2) := by
  obtain ⟨q, hb⟩ := h.body
  refine ⟨q, ?_⟩
  simp only [Grammar.descend, hb, Bool.false_eq_true, if_false]

theorem spots {a : Atlas} (h : a.grammar.ReadsOneOf r ks) (full : Bool) (guards : Guards)
    (level : Option Nat) (rule : Rule) (calls : Stacks) :
    ∃ q, a.spots full guards level rule calls (.call p r lv t l :: rest) =
      [⟨q, [.oneOf q ks none], .push ⟨p, rest, lv, t⟩ calls .nil, level, false, false⟩] := by
  obtain ⟨q, hd⟩ := h.descend p lv t l rest 4094 guards level calls ([], false)
  refine ⟨q, ?_⟩
  have hdepth : Grammar.depth = 4094 + 2 := rfl
  simp only [Atlas.spots, hdepth, hd, Bool.false_eq_true, if_false]

end Grammar.ReadsOneOf

namespace Atlas

open Configs

variable {a : Atlas} {r : Rule} {ks : KindSet} {p : Place} {lv : Nat} {t : Bool}
  {l : Option Label} {rest : List Part} {d : Decision} {alt : Nat}

theorem start_spots (h : a.grammar.ReadsOneOf r ks) (full : Bool) (guards : Guards)
    (calls : Stacks) (hd : d.alternatives[alt - 1]? = some (.call p r lv t l :: rest)) :
    ∀ c ∈ (a.start full guards calls d).list, c.alt = alt →
      c.spot.outer = false ∧ ∃ q, c.spot.parts = [.oneOf q ks none] := by
  have hjoin : Joinable fun c ↦ c.alt = alt →
      c.spot.outer = false ∧ ∃ q, c.spot.parts = [.oneOf q ks none] := by
    intro c d calls hc hd he halt
    obtain ⟨ho, hp⟩ := hd halt
    exact ⟨by rw [ho, (hc (he.symm.trans halt)).1]; rfl, hp⟩
  refine List.foldlRecOn _ _ (motive := fun m ↦ ∀ c ∈ Configs.list m, c.alt = alt →
      c.spot.outer = false ∧ ∃ q, c.spot.parts = [.oneOf q ks none])
    (fun c hc ↦ absurd hc not_mem_list_empty) fun m hm e he ↦ ?_
  refine List.foldlRecOn _ _ (motive := fun m ↦ ∀ c ∈ Configs.list m, c.alt = alt →
      c.spot.outer = false ∧ ∃ q, c.spot.parts = [.oneOf q ks none]) hm fun m hm s hs ↦ ?_
  refine forall_add hjoin (fun halt ↦ ?_) hm
  obtain ⟨parts, n⟩ := e
  dsimp only at halt hs
  subst halt
  rw [(List.mk_mem_zipIdx_iff_le_and_getElem?_sub.1 he).2] at hd
  obtain rfl := Option.some.inj hd
  obtain ⟨q, hspots⟩ := h.spots p lv t l rest full guards none d.rule calls
  rw [hspots] at hs
  rw [List.mem_singleton.1 hs]
  exact ⟨rfl, q, rfl⟩

theorem contains_of_survives {m : Configs} {k : Kind}
    (hm : ∀ c ∈ m.list, c.alt = alt → c.spot.outer = false ∧ ∃ q, c.spot.parts = [.oneOf q ks none])
    (h : Survives k m alt) : ks.contains k = true := by
  obtain ⟨c, hc, halt, h⟩ := h
  obtain ⟨ho, q, hp⟩ := hm c hc halt
  obtain h | h := h
  · simpa only [Config.accepts, hp] using h
  · simp only [Config.finished, Config.atEnd, ho, hp, List.isEmpty_cons, Bool.or_self,
      Bool.false_eq_true] at h

theorem contains_of_oneToken? (h : a.grammar.ReadsOneOf r ks) {sets : List KindSet} {i : Nat}
    {k : Kind} (hs : a.grammar.oneToken? d = some sets) (hi : sets.findIdx? (·.contains k) = some i)
    (hd : d.alternatives[i]? = some (.call p r lv t l :: rest)) : ks.contains k = true := by
  unfold Grammar.oneToken? at hs
  dsimp only at hs
  split at hs
  case isFalse => cases hs
  case isTrue =>
    obtain rfl := Option.some.inj hs
    obtain ⟨hlt, hk, -⟩ := List.findIdx?_eq_some_iff_getElem.1 hi
    simp only [List.getElem_map] at hk
    rw [(List.getElem?_eq_some_iff.1 hd).2, h.look] at hk
    exact hk

/-- A sequence that begins with a rule of one token is chosen only before such a token. -/
theorem contains_of_choose (h : a.grammar.ReadsOneOf r ks) {kinds : Array Kind}
    {pos level : Nat} {stack : List Site} (hop : d.onOperators = false) (hoth : d.otherwise = none)
    (hd : d.alternatives[alt - 1]? = some (.call p r lv t l :: rest))
    (hc : (a.choose kinds pos level stack d).verdict = .read alt) :
    ks.contains (kinds.getD pos .eof) = true := by
  unfold choose at hc
  split at hc
  case h_1 sets hsets =>
    rw [hoth] at hc
    split at hc
    case h_1 hi => cases hc; exact contains_of_oneToken? h hsets hi hd
    case h_2 he => cases he
    case h_3 => cases hc
  case h_2 =>
    unfold predict at hc
    dsimp only at hc
    rw [hop, if_neg (by decide)] at hc
    split at hc
    case h_1 =>
      exact contains_of_survives (start_spots h _ _ _ hd) (followOpen_survives _ _ _ hc)
    case h_2 =>
      exact contains_of_survives (start_spots h _ _ _ hd) (followAny_survives _ _ _ hc)

end Atlas

end PlanCache
