import PlanCache.Json.Read
import PlanCache.Json.Write
import PlanCache.Proofs.LetterCase

/-!
JSON written and read again. The units of a text give the text back, an escape is read as the unit
for which it was written, and a value without numbers whose objects have each key once is read as
itself, however it is indented.
-/

namespace PlanCache

namespace Units

variable {c : Char} {u v : UInt16} {us : Units}

theorem isHigh_iff : isHigh u = true ↔ 0xd800 ≤ u.toNat ∧ u.toNat < 0xdc00 := by
  simp [isHigh, UInt16.le_iff_toNat_le, UInt16.lt_iff_toNat_lt]

theorem isLow_iff : isLow u = true ↔ 0xdc00 ≤ u.toNat ∧ u.toNat < 0xe000 := by
  simp [isLow, UInt16.le_iff_toNat_le, UInt16.lt_iff_toNat_lt]

theorem toNat_char (c : Char) : c.toNat < 0xd800 ∨ 0xdfff < c.toNat ∧ c.toNat < 0x110000 := c.valid

/-- A unit that is no half of a pair is a character by itself. -/
theorem toChars_cons (hu : ¬(0xd800 ≤ u.toNat ∧ u.toNat < 0xe000)) :
    toChars (u :: us) = Char.ofNat u.toNat :: toChars us := by
  have hhigh : isHigh u = false := by
    rw [Bool.eq_false_iff, ne_eq, isHigh_iff]
    omega
  have hlow : isLow u = false := by
    rw [Bool.eq_false_iff, ne_eq, isLow_iff]
    omega
  cases us with
  | nil => simp [toChars, hhigh, hlow]
  | cons v us => simp [toChars, hhigh, hlow]

theorem toChars_pair (hu : isHigh u = true) (hv : isLow v = true) :
    toChars (u :: v :: us) =
      Char.ofNat (0x10000 + (u.toNat - 0xd800) * 0x400 + (v.toNat - 0xdc00)) :: toChars us := by
  rw [toChars, hu, hv]
  rfl

theorem toChars_ofChar_append : toChars (ofChar c ++ us) = c :: toChars us := by
  have hc := toNat_char c
  unfold ofChar
  dsimp only
  split
  · have hn : (UInt16.ofNat c.toNat).toNat = c.toNat := by
      rw [UInt16.toNat_ofNat']
      omega
    rw [List.singleton_append, toChars_cons (by omega), hn, Char.ofNat_toNat]
  · rename_i hbig
    have hhigh : (UInt16.ofNat (0xd800 + (c.toNat - 0x10000) / 0x400)).toNat =
        0xd800 + (c.toNat - 0x10000) / 0x400 := by
      rw [UInt16.toNat_ofNat']
      omega
    have hlow : (UInt16.ofNat (0xdc00 + (c.toNat - 0x10000) % 0x400)).toNat =
        0xdc00 + (c.toNat - 0x10000) % 0x400 := by
      rw [UInt16.toNat_ofNat']
      omega
    have hsum : 0x10000 + (0xd800 + (c.toNat - 0x10000) / 0x400 - 0xd800) * 0x400 +
        (0xdc00 + (c.toNat - 0x10000) % 0x400 - 0xdc00) = c.toNat := by
      omega
    rw [List.cons_append, List.singleton_append,
      toChars_pair (isHigh_iff.2 (by omega)) (isLow_iff.2 (by omega)), hhigh, hlow, hsum,
      Char.ofNat_toNat]

/-- No text is lost in units. -/
theorem toString_ofString (s : String) : (ofString s).toString = s := by
  have hchars : ∀ cs : List Char, toChars (cs.flatMap ofChar) = cs := by
    intro cs
    induction cs with
    | nil => rfl
    | cons c cs ih => rw [List.flatMap_cons, toChars_ofChar_append, ih]
  rw [toString, ofString, hchars, String.ofList_toList]

end Units

namespace Json

section Strings

variable {done us : Units} {u : UInt16} {a b c d : Char} {cs : List Char}

theorem hexDigit?_digitChar {n : Nat} (h : n < 16) : hexDigit? (Nat.digitChar n) = some n := by
  have hall : (List.range 16).all (fun n ↦ hexDigit? (Nat.digitChar n) == some n) = true := by
    decide
  exact eq_of_beq (List.all_eq_true.1 hall n (List.mem_range.2 h))

theorem readString_hex (u : UInt16) :
    readString done ('\\' :: 'u' :: Text.hex 4 u.toNat ++ cs) = readString (u :: done) cs := by
  have hu := u.toNat_lt
  have hdigits : Text.hex 4 u.toNat = [Nat.digitChar (u.toNat / 16 / 16 / 16 % 16),
      Nat.digitChar (u.toNat / 16 / 16 % 16), Nat.digitChar (u.toNat / 16 % 16),
      Nat.digitChar (u.toNat % 16)] := rfl
  have hunit : hexUnit? (Nat.digitChar (u.toNat / 16 / 16 / 16 % 16))
      (Nat.digitChar (u.toNat / 16 / 16 % 16)) (Nat.digitChar (u.toNat / 16 % 16))
      (Nat.digitChar (u.toNat % 16)) = some u := by
    have hsum : ((u.toNat / 16 / 16 / 16 % 16 * 16 + u.toNat / 16 / 16 % 16) * 16 +
        u.toNat / 16 % 16) * 16 + u.toNat % 16 = u.toNat := by
      omega
    simp only [hexUnit?, hexDigit?_digitChar (Nat.mod_lt _ (by decide : 0 < 16)),
      Option.bind_eq_bind, Option.bind_some, hsum, UInt16.ofNat_toNat]
    rfl
  rw [hdigits]
  simp only [List.cons_append, List.nil_append, readString, hunit, Option.bind_eq_bind,
    Option.bind_some]

theorem readString_char (hquote : c ≠ '"') (hslash : c ≠ '\\') (hc : 0x20 ≤ c.toNat) :
    readString done (c :: cs) = readString ((Units.ofChar c).reverse ++ done) cs := by
  have hplain : (c == '\\' || decide (c.toNat < 0x20)) = false := by
    simpa [hslash] using hc
  rw [readString]
  · rw [hplain]
    rfl
  · exact hquote
  · intro _ _ _ _ _ he
    exact absurd he hslash
  · intro _ _ he
    exact absurd he hslash

theorem readString_escape (hc : c ≠ 'u') (h : escaped? c = some u) :
    readString done ('\\' :: c :: cs) = readString (u :: done) cs := by
  rw [readString, h]
  · rfl
  · intro _ _ _ _ _ he
    exact absurd he hc

/-- What is written for a unit is read as this unit. -/
theorem readString_writeUnit (u : UInt16) :
    readString done (writeUnit u ++ cs) = readString (u :: done) cs := by
  have hescape : ∀ (c : Char) (v : UInt16), u.toNat = v.toNat → c ≠ 'u' → escaped? c = some v →
      readString done (['\\', c] ++ cs) = readString (u :: done) cs := by
    intro c v hv hc he
    rw [UInt16.toNat_inj.1 hv]
    exact readString_escape hc he
  unfold writeUnit
  dsimp only
  split
  · exact hescape '"' 0x22 ‹_› (by decide) rfl
  split
  · exact hescape '\\' 0x5c ‹_› (by decide) rfl
  split
  · exact hescape 'n' 0x0a ‹_› (by decide) rfl
  split
  · exact hescape 'r' 0x0d ‹_› (by decide) rfl
  split
  · exact hescape 't' 0x09 ‹_› (by decide) rfl
  split
  · exact hescape 'f' 0x0c ‹_› (by decide) rfl
  split
  · exact hescape 'b' 0x08 ‹_› (by decide) rfl
  split
  · rename_i hquote hslash _ _ _ _ _ hprintable
    rw [Bool.and_eq_true, decide_eq_true_eq, decide_eq_true_eq] at hprintable
    have hn : (Char.ofNat u.toNat).toNat = u.toNat := by
      have h := Text.toNat_ofNat u.toNat
      omega
    have hunits : Units.ofChar (Char.ofNat u.toNat) = [u] := by
      rw [Units.ofChar, hn, if_pos (by omega), UInt16.ofNat_toNat]
    rw [List.singleton_append, readString_char, hunits]
    · rfl
    · intro he
      rw [he] at hn
      exact hquote hn.symm
    · intro he
      rw [he] at hn
      exact hslash hn.symm
    · omega
  · exact readString_hex u

theorem readString_flatMap (us : Units) (cs : List Char) :
    readString done (us.flatMap writeUnit ++ '"' :: cs) = some (done.reverse ++ us, cs) := by
  induction us generalizing done with
  | nil => rw [List.flatMap_nil, List.nil_append, readString, List.append_nil]
  | cons u us ih =>
    rw [List.flatMap_cons, List.append_assoc, readString_writeUnit, ih, List.reverse_cons,
      List.append_assoc, List.singleton_append]

theorem toList_writeString (us : Units) :
    (writeString us).toList = '"' :: (us.flatMap writeUnit ++ ['"']) := by
  rw [writeString, String.toList_ofList]
  rfl

end Strings

/-- A text is read as a value, whatever follows it, and begins with neither white space nor the
bracket that ends a list. -/
structure IsText (v : Json) (text : List Char) : Prop where
  head : ∃ c cs, text = c :: cs ∧ isSpace c = false ∧ c ≠ ']'
  read : ∀ fuel rest, 2 * text.length ≤ fuel → readValue fuel (text ++ rest) = some (v, rest)

section Values

variable {v : Json} {text gap cs : List Char}

theorem skipSpace_append (hgap : ∀ c ∈ gap, isSpace c = true) :
    skipSpace (gap ++ cs) = skipSpace cs := by
  induction gap with
  | nil => rfl
  | cons c gap ih =>
    rw [List.forall_mem_cons] at hgap
    rw [List.cons_append, skipSpace, List.dropWhile_cons_of_pos hgap.1]
    exact ih hgap.2

theorem skipSpace_cons {c : Char} (hc : isSpace c = false) : skipSpace (c :: cs) = c :: cs := by
  rw [skipSpace, List.dropWhile_cons_of_neg (by rw [hc]; decide)]

theorem IsText.skipSpace_eq (h : IsText v text) (rest : List Char) :
    skipSpace (text ++ rest) = text ++ rest := by
  obtain ⟨c, cs, rfl, hc, -⟩ := h.head
  exact skipSpace_cons hc

/-- Reading a value takes at least one step. -/
theorem IsText.of_succ (hhead : ∃ c cs, text = c :: cs ∧ isSpace c = false ∧ c ≠ ']')
    (hread : ∀ fuel rest, 2 * text.length ≤ fuel + 1 →
      readValue (fuel + 1) (text ++ rest) = some (v, rest)) : IsText v text := by
  refine ⟨hhead, fun fuel rest hfuel ↦ ?_⟩
  obtain ⟨c, cs, rfl, -⟩ := hhead
  cases fuel with
  | zero => cases hfuel
  | succ fuel => exact hread fuel rest hfuel

theorem isText_null : IsText .null "null".toList :=
  .of_succ ⟨'n', _, rfl, rfl, by decide⟩ fun _ _ _ ↦ rfl

theorem isText_bool (b : Bool) : IsText (.bool b) (if b then "true" else "false").toList := by
  cases b with
  | true => exact .of_succ ⟨'t', _, rfl, rfl, by decide⟩ fun _ _ _ ↦ rfl
  | false => exact .of_succ ⟨'f', _, rfl, rfl, by decide⟩ fun _ _ _ ↦ rfl

theorem isText_string (us : Units) : IsText (.str us) (writeString us).toList := by
  rw [toList_writeString]
  refine .of_succ ⟨'"', _, rfl, rfl, by decide⟩ fun fuel rest _ ↦ ?_
  have hread := @readString_flatMap [] us rest
  rw [List.cons_append, List.append_assoc, List.singleton_append, readValue, hread]
  rfl

end Values

section Blocks

variable {gap last : List Char}

/-- Texts with commas between them, and white space behind each comma. -/
def joined (gap : List Char) (texts : List (List Char)) : List Char :=
  (',' :: gap).intercalate texts

theorem joined_cons_cons (t u : List Char) (ts : List (List Char)) :
    joined gap (t :: u :: ts) = t ++ ',' :: (gap ++ joined gap (u :: ts)) := by
  rw [joined, List.intercalate_cons_cons, List.append_assoc]
  rfl

theorem joined_singleton (t : List Char) : joined gap [t] = t := by
  simp [joined, List.intercalate]

/-- The first text begins all of them. -/
theorem exists_joined_eq (t : List Char) (ts : List (List Char)) :
    ∃ more, joined gap (t :: ts) = t ++ more := by
  cases ts with
  | nil => exact ⟨[], by rw [joined_singleton, List.append_nil]⟩
  | cons u ts => exact ⟨_, joined_cons_cons t u ts⟩

theorem writeItems_eq_map (indent level : Nat) (vs : List Json) :
    writeItems indent level vs = vs.map (·.writeAt indent level) := by
  induction vs with
  | nil => rfl
  | cons v vs ih => rw [writeItems, ih, List.map_cons]

theorem writeMembers_eq_map (indent level : Nat) (ms : List (Units × Json)) :
    writeMembers indent level ms =
      ms.map fun m ↦ writeString m.1 ++ ": " ++ m.2.writeAt indent level := by
  induction ms with
  | nil => rfl
  | cons m ms ih => rw [writeMembers, ih, List.map_cons]

/-- A reader of items takes an item with this text, both before the bracket `close` and before
a comma with more items. -/
structure Takes {α : Type} (read : Nat → List Char → Option (List α × List Char)) (close : Char)
    (x : α) (text : List Char) : Prop where
  skip : ∀ rest, skipSpace (text ++ rest) = text ++ rest
  head : ∀ rest tail, text ++ rest ≠ close :: tail
  last : ∀ fuel gap rest, 2 * text.length ≤ fuel → (∀ c ∈ gap, isSpace c = true) →
    read (fuel + 1) (text ++ (gap ++ close :: rest)) = some ([x], rest)
  next : ∀ fuel gap more xs rest, 2 * text.length ≤ fuel → (∀ c ∈ gap, isSpace c = true) →
    read fuel (skipSpace more) = some (xs, rest) →
      read (fuel + 1) (text ++ ',' :: (gap ++ more)) = some (x :: xs, rest)

section Items

variable {α : Type} {read : Nat → List Char → Option (List α × List Char)} {close : Char} {x : α}
  {xs : List α} {t : List Char} {text : α → List Char} {fuel : Nat} {rest : List Char}

theorem Takes.skipSpace_joined (hx : Takes read close x t) (ts : List (List Char)) :
    skipSpace (joined gap (t :: ts) ++ rest) = joined gap (t :: ts) ++ rest := by
  obtain ⟨more, hmore⟩ := @exists_joined_eq gap t ts
  rw [hmore, List.append_assoc, hx.skip]

/-- Items one after another are read up to the bracket behind them. -/
theorem read_joined (hne : xs ≠ []) (hxs : ∀ x ∈ xs, Takes read close x (text x))
    (hgap : ∀ c ∈ gap, isSpace c = true) (hlast : ∀ c ∈ last, isSpace c = true)
    (hfuel : 2 * (joined gap (xs.map text)).length < fuel) :
    read fuel (joined gap (xs.map text) ++ (last ++ close :: rest)) = some (xs, rest) := by
  induction xs generalizing fuel with
  | nil => exact absurd rfl hne
  | cons x xs ih =>
    obtain ⟨hx, hxs⟩ := List.forall_mem_cons.1 hxs
    cases fuel with
    | zero => exact absurd hfuel (Nat.not_lt_zero _)
    | succ fuel =>
      cases xs with
      | nil =>
        rw [List.map_singleton, joined_singleton] at hfuel ⊢
        exact hx.last fuel _ _ (by omega) hlast
      | cons y ys =>
        rw [List.map_cons, List.map_cons, joined_cons_cons, List.length_append, List.length_cons,
          List.length_append] at hfuel
        rw [List.map_cons, List.map_cons, joined_cons_cons, List.append_assoc, List.cons_append,
          List.append_assoc]
        refine hx.next fuel _ _ _ _ (by omega) hgap ?_
        rw [(hxs y List.mem_cons_self).skipSpace_joined]
        exact ih (List.cons_ne_nil _ _) hxs (by rw [List.map_cons]; omega)

/-- Behind an opening bracket there are the items, and no closing bracket before them. -/
theorem read_block (hxs : ∀ y ∈ x :: xs, Takes read close y (text y))
    (hgap : ∀ c ∈ gap, isSpace c = true) (hlast : ∀ c ∈ last, isSpace c = true)
    (hfuel : 2 * (joined gap ((x :: xs).map text)).length < fuel) {cs : List Char}
    (hcs : cs = gap ++ (joined gap ((x :: xs).map text) ++ (last ++ close :: rest))) :
    (∀ tail, skipSpace cs ≠ close :: tail) ∧ read fuel (skipSpace cs) = some (x :: xs, rest) := by
  have hx := hxs x List.mem_cons_self
  rw [hcs, skipSpace_append hgap, List.map_cons, hx.skipSpace_joined]
  refine ⟨fun tail htail ↦ ?_, read_joined (List.cons_ne_nil _ _) hxs hgap hlast hfuel⟩
  obtain ⟨more, hmore⟩ := @exists_joined_eq gap (text x) (xs.map text)
  rw [hmore, List.append_assoc] at htail
  exact hx.head _ _ htail

/-- What begins a line of a block. -/
def margin (n : Nat) : List Char := '\n' :: List.replicate n ' '

theorem isSpace_of_mem_margin {n : Nat} {c : Char} (hc : c ∈ margin n) : isSpace c = true := by
  rcases List.mem_cons.1 hc with rfl | hc
  · rfl
  · rw [List.eq_of_mem_replicate hc]
    rfl

theorem toList_writeBlock {opening closing : String} {a : Char} {indent level : Nat}
    (hopening : opening.toList = [a]) (hclosing : closing.toList = [close]) (text : α → String) :
    (writeBlock indent level opening closing ((x :: xs).map text)).toList =
      a :: (margin (indent * (level + 1)) ++ (joined (margin (indent * (level + 1)))
        ((x :: xs).map fun y ↦ (text y).toList) ++ (margin (indent * level) ++ [close]))) := by
  simp only [writeBlock, joined, List.map_cons, String.toList_append, hopening, hclosing,
    String.toList_intercalate, String.toList_ofList, List.append_assoc, List.map_map]
  rfl

/-- A block is the text of a value that is read from the block's items. -/
theorem isText_block {opening closing : String} {a : Char} {v : Json} {indent level : Nat}
    {text : α → String} (hopening : opening.toList = [a]) (hclosing : closing.toList = [close])
    (hspace : isSpace a = false) (ha : a ≠ ']')
    (hxs : ∀ y ∈ x :: xs, Takes read close y (text y).toList)
    (hread : ∀ fuel cs rest, (∀ tail, skipSpace cs ≠ close :: tail) →
      read fuel (skipSpace cs) = some (x :: xs, rest) →
        readValue (fuel + 1) (a :: cs) = some (v, rest)) :
    IsText v (writeBlock indent level opening closing ((x :: xs).map text)).toList := by
  rw [toList_writeBlock hopening hclosing]
  refine .of_succ ⟨a, _, rfl, hspace, ha⟩ fun fuel rest hfuel ↦ ?_
  rw [List.length_cons, List.length_append, List.length_append] at hfuel
  rw [List.cons_append, List.append_assoc, List.append_assoc, List.append_assoc]
  have hlength : 2 * (joined (margin (indent * (level + 1)))
      ((x :: xs).map fun y ↦ (text y).toList)).length < fuel := by
    omega
  obtain ⟨hcs, hitems⟩ := read_block hxs (fun _ ↦ isSpace_of_mem_margin)
    (fun _ ↦ isSpace_of_mem_margin) hlength rfl
  exact hread fuel _ rest hcs hitems

end Items

theorem IsText.takes {v : Json} {text : List Char} (h : IsText v text) :
    Takes readItems ']' v text where
  skip := h.skipSpace_eq
  head rest tail he := by
    obtain ⟨c, cs, rfl, -, hc⟩ := h.head
    exact hc (List.cons.inj he).1
  last fuel gap rest hfuel hgap := by
    simp only [readItems, h.read fuel _ hfuel, Option.bind_eq_bind, Option.bind_some,
      skipSpace_append hgap, skipSpace_cons (c := ']') rfl]
    rfl
  next fuel gap more vs rest hfuel hgap hmore := by
    simp only [readItems, h.read fuel _ hfuel, Option.bind_eq_bind, Option.bind_some,
      skipSpace_cons (c := ',') rfl, skipSpace_append hgap, hmore]
    rfl

/-- The text of a member of an object, from the text of its value. -/
def memberText (key : Units) (text : List Char) : List Char :=
  '"' :: (key.flatMap writeUnit ++ '"' :: ':' :: ' ' :: text)

theorem IsText.takes_member {v : Json} {text : List Char} (h : IsText v text) (key : Units) :
    Takes readMembers '\x7d' (key, v) (memberText key text) := by
  have hkey := @readString_flatMap [] key
  have hskip : ∀ rest, skipSpace (' ' :: (text ++ rest)) = text ++ rest := h.skipSpace_eq
  have hlength : text.length ≤ (memberText key text).length := by
    simp only [memberText, List.length_cons, List.length_append]
    omega
  refine ⟨fun rest ↦ skipSpace_cons rfl, fun rest tail he ↦ ?_, ?_, ?_⟩
  · exact absurd (List.cons.inj he).1 (by decide)
  · intro fuel gap rest hfuel hgap
    have hread := h.read fuel (gap ++ '\x7d' :: rest) (by omega)
    simp only [memberText, List.cons_append, List.append_assoc, readMembers, hkey,
      Option.bind_eq_bind, Option.bind_some, skipSpace_cons (c := ':') rfl, hskip, hread,
      skipSpace_append hgap, skipSpace_cons (c := '\x7d') rfl]
    rfl
  · intro fuel gap more ms rest hfuel hgap hmore
    have hread := h.read fuel (',' :: (gap ++ more)) (by omega)
    simp only [memberText, List.cons_append, List.append_assoc, readMembers, hkey,
      Option.bind_eq_bind, Option.bind_some, skipSpace_cons (c := ':') rfl, hskip, hread,
      skipSpace_cons (c := ',') rfl, skipSpace_append hgap, hmore]
    rfl

end Blocks

/-- Values without numbers, where each object has a key once. -/
inductive Plain : Json → Prop where
  | null : Plain .null
  | bool (b : Bool) : Plain (.bool b)
  | str (us : Units) : Plain (.str us)
  | arr {vs : List Json} (hvs : ∀ v ∈ vs, Plain v) : Plain (.arr vs)
  | obj {ms : List (Units × Json)} (hkeys : (Table.keys ms).Nodup) (hms : ∀ m ∈ ms, Plain m.2) :
      Plain (.obj ms)

section Plain

variable {v : Json} {indent level fuel : Nat} {cs rest : List Char}

theorem readValue_arr {vs : List Json} (hcs : ∀ tail, skipSpace cs ≠ ']' :: tail)
    (hread : readItems fuel (skipSpace cs) = some (vs, rest)) :
    readValue (fuel + 1) ('[' :: cs) = some (.arr vs, rest) := by
  rw [readValue]
  split
  · rename_i tail htail
    exact absurd htail (hcs tail)
  · rw [hread]
    rfl

theorem readValue_obj {ms : List (Units × Json)} (hcs : ∀ tail, skipSpace cs ≠ '\x7d' :: tail)
    (hread : readMembers fuel (skipSpace cs) = some (ms, rest)) :
    readValue (fuel + 1) ('\x7b' :: cs) = some (.obj (Table.ofEntries ms), rest) := by
  rw [readValue]
  split
  · rename_i tail htail
    exact absurd htail (hcs tail)
  · rw [hread]
    rfl

theorem isText_arr {vs : List Json}
    (hvs : ∀ v ∈ vs, IsText v (v.writeAt indent (level + 1)).toList) :
    IsText (.arr vs) ((Json.arr vs).writeAt indent level).toList := by
  rw [writeAt, writeItems_eq_map]
  cases vs with
  | nil =>
    rw [List.map_nil, writeBlock, String.toList_append]
    exact .of_succ ⟨'[', _, rfl, rfl, by decide⟩ fun _ _ _ ↦ rfl
  | cons v vs =>
    exact isText_block rfl rfl rfl (by decide) (fun w hw ↦ (hvs w hw).takes)
      fun _ _ _ ↦ readValue_arr

theorem isText_obj {ms : List (Units × Json)} (hkeys : (Table.keys ms).Nodup)
    (hms : ∀ m ∈ ms, IsText m.2 (m.2.writeAt indent (level + 1)).toList) :
    IsText (.obj ms) ((Json.obj ms).writeAt indent level).toList := by
  rw [writeAt, writeMembers_eq_map]
  cases ms with
  | nil =>
    rw [List.map_nil, writeBlock, String.toList_append]
    exact .of_succ ⟨'\x7b', _, rfl, rfl, by decide⟩ fun _ _ _ ↦ rfl
  | cons m ms =>
    have htakes : ∀ w ∈ m :: ms, Takes readMembers '\x7d' w
        (writeString w.1 ++ ": " ++ w.2.writeAt indent (level + 1)).toList := by
      intro w hw
      have htext : (writeString w.1 ++ ": " ++ w.2.writeAt indent (level + 1)).toList =
          memberText w.1 (w.2.writeAt indent (level + 1)).toList := by
        simp [memberText, toList_writeString]
      rw [htext]
      exact (hms w hw).takes_member w.1
    refine isText_block (a := '\x7b') rfl rfl rfl (by decide) htakes
      fun fuel cs rest hcs hread ↦ ?_
    rw [readValue_obj hcs hread, Table.ofEntries_of_nodup hkeys]

/-- A value without numbers is read from its text, whatever the indentation. -/
theorem Plain.isText (h : Plain v) : IsText v (v.writeAt indent level).toList := by
  induction h generalizing level with
  | null => exact isText_null
  | bool b => exact isText_bool b
  | str us => exact isText_string us
  | arr _ ih => exact isText_arr fun v hv ↦ ih v hv
  | obj hkeys _ ih => exact isText_obj hkeys fun m hm ↦ ih m hm

theorem Plain.read?_write (h : Plain v) (indent : Nat) : read? (v.write indent) = some v := by
  have htext : IsText v (v.write indent).toList := h.isText
  have hread := htext.read (2 * (v.write indent).toList.length + 2) [] (by omega)
  have hskip := htext.skipSpace_eq []
  rw [List.append_nil] at hread hskip
  simp only [read?, hskip, hread]
  rfl

end Plain

end Json

end PlanCache
