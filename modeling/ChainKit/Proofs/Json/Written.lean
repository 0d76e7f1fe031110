import ChainKit.Proofs.Json.Members
import ChainKit.Proofs.Json.Nesting
import ChainKit.Proofs.Json.Numeral

namespace ChainKit.Json

namespace Source

mutual

/-- The form in which the text of a value is read. -/
def written : Json → Source
  | .null => .null
  | .bool b => .bool b
  | .num n => .num n.literal.value?
  | .str s => .str (some s)
  | .arr items => .arr (writtenItems items)
  | .obj members => .obj (writtenMembers members)

def writtenItems : List Json → List Source
  | [] => []
  | v :: rest => written v :: writtenItems rest

def writtenMembers : List (String × Json) → List (Option String × Source)
  | [] => []
  | (k, v) :: rest => (some k, written v) :: writtenMembers rest

end

mutual

theorem nesting_written : ∀ v : Json, (written v).nesting = v.nesting
  | .null | .bool _ | .num _ | .str _ => rfl
  | .arr items => by rw [written, nesting, Json.nesting, itemsNesting_written items]
  | .obj members => by rw [written, nesting, Json.nesting, membersNesting_written members]

theorem itemsNesting_written : ∀ vs : List Json,
    itemsNesting (writtenItems vs) = Json.itemsNesting vs
  | [] => rfl
  | v :: rest => by
    rw [writtenItems, itemsNesting, Json.itemsNesting, nesting_written v, itemsNesting_written rest]

theorem membersNesting_written : ∀ ms : List (String × Json),
    membersNesting (writtenMembers ms) = Json.membersNesting ms
  | [] => rfl
  | (_, v) :: rest => by
    rw [writtenMembers, membersNesting, Json.membersNesting, nesting_written v,
      membersNesting_written rest]

end

end Source

namespace Parser

theorem join?_unit {n : Nat} (h : n < 0xD800) (ps : List Piece) :
    join? (.unit n :: ps) = (join? ps).map (Char.ofNat n :: ·) := by
  have hhigh : isHighSurrogate n = false := by simp [isHighSurrogate]; omega
  have hlow : isLowSurrogate n = false := by simp [isLowSurrogate]; omega
  cases ps with
  | nil => simp [join?, hhigh, hlow]
  | cons p ps =>
    cases p with
    | char c =>
      simp only [join?, hhigh, hlow]
      cases join? ps <;> rfl
    | unit m => simp [join?, hhigh, hlow]

theorem hexValue?_digitChar : ∀ d < 16, hexValue? (Nat.digitChar d) = some d := by decide

/-- Whether characters are read as one piece that stands for a character. -/
def Spells (cs : List Char) (c : Char) : Prop :=
  ∃ p, (∀ rest, pieces? (cs ++ rest) = (pieces? rest).map fun r => (p :: r.1, r.2)) ∧
    ∀ ps, join? (p :: ps) = (join? ps).map (c :: ·)

theorem spells_escape {e c : Char} (he : e ≠ 'u') (h : simpleEscape? e = some c) :
    Spells ['\\', e] c := by
  refine ⟨.char c, ?_, fun _ => rfl⟩
  intro rest
  change pieces? ('\\' :: e :: rest) = _
  rw [pieces?, h]
  · cases pieces? rest <;> rfl
  · exact fun _ _ _ _ _ heq => absurd heq he

theorem spells_unit {c : Char} (h : c.toNat < 32) :
    Spells ['\\', 'u', '0', '0', Nat.digitChar (c.toNat / 16), Nat.digitChar (c.toNat % 16)] c := by
  have hhigh := hexValue?_digitChar (c.toNat / 16) (by omega)
  have hlow := hexValue?_digitChar (c.toNat % 16) (by omega)
  have hunit : hexUnit? '0' '0' (Nat.digitChar (c.toNat / 16)) (Nat.digitChar (c.toNat % 16)) =
      some c.toNat := by
    have hsplit : ((0 * 16 + 0) * 16 + c.toNat / 16) * 16 + c.toNat % 16 = c.toNat := by omega
    rw [hexUnit?, hhigh, hlow]
    exact congrArg some hsplit
  refine ⟨.unit c.toNat, ?_, ?_⟩
  · intro rest
    simp only [List.cons_append, List.nil_append, pieces?, hunit]
    cases pieces? rest <;> rfl
  · intro ps
    rw [join?_unit (by omega), Char.ofNat_toNat]

theorem spells_self {c : Char} (hquote : c ≠ '"') (hslash : c ≠ '\\') (h : ¬c.toNat < 32) :
    Spells [c] c := by
  refine ⟨.char c, ?_, fun _ => rfl⟩
  intro rest
  change pieces? (c :: rest) = _
  rw [pieces?, if_neg (by simp only [h, hslash, or_self, not_false_eq_true])]
  · exact hquote
  · exact fun _ _ _ _ _ heq => absurd heq hslash
  · exact fun _ _ heq => absurd heq hslash

theorem spells_writeChar (c : Char) : Spells (writeChar c) c := by
  have hescaped : ∀ c ∈ ['"', '\\', '\x08', '\t', '\n', '\x0c', '\r'], ∃ e,
      writeChar c = ['\\', e] ∧ e ≠ 'u' ∧ simpleEscape? e = some c := by
    simp only [List.forall_mem_cons]
    exact ⟨⟨'"', by decide⟩, ⟨'\\', by decide⟩, ⟨'b', by decide⟩, ⟨'t', by decide⟩,
      ⟨'n', by decide⟩, ⟨'f', by decide⟩, ⟨'r', by decide⟩, nofun⟩
  by_cases hc : c ∈ ['"', '\\', '\x08', '\t', '\n', '\x0c', '\r']
  · obtain ⟨e, hwrite, he, hsimple⟩ := hescaped c hc
    rw [hwrite]
    exact spells_escape he hsimple
  · simp only [List.mem_cons, List.not_mem_nil, or_false, not_or] at hc
    obtain ⟨hquote, hslash, hbackspace, htab, hline, hform, hreturn⟩ := hc
    rw [writeChar, if_neg hquote, if_neg hslash, if_neg hbackspace, if_neg htab, if_neg hline,
      if_neg hform, if_neg hreturn]
    split
    · exact spells_unit ‹_›
    · exact spells_self hquote hslash ‹_›

theorem exists_pieces (cs rest : List Char) : ∃ ps,
    pieces? (cs.flatMap writeChar ++ '"' :: rest) = some (ps, rest) ∧ join? ps = some cs := by
  induction cs with
  | nil => exact ⟨[], rfl, rfl⟩
  | cons c cs ih =>
    obtain ⟨ps, hps, hjoin⟩ := ih
    obtain ⟨p, hp, hc⟩ := spells_writeChar c
    refine ⟨p :: ps, ?_, ?_⟩
    · rw [List.flatMap_cons, List.append_assoc, hp, hps]
      rfl
    · rw [hc, hjoin]
      rfl

theorem string?_append (s : String) (rest : List Char) :
    string? (s.toList.flatMap writeChar ++ '"' :: rest) = some (some s, rest) := by
  obtain ⟨ps, hps, hjoin⟩ := exists_pieces s.toList rest
  simp only [string?, hps, Option.map_some, hjoin, String.ofList_toList]

/-- Whether a text begins like a value. -/
def Opens (cs : List Char) : Prop := ∃ c rest, cs = c :: rest ∧ c ∉ [' ', '\t', '\n', '\r', ']']

variable {cs rest : List Char} {fuel : Nat} {l : Literal}

theorem Opens.skipBlank (h : Opens cs) : skipBlank cs = cs := by
  obtain ⟨c, rest, rfl, hc⟩ := h
  simp only [List.mem_cons, List.not_mem_nil, or_false, not_or] at hc
  exact List.dropWhile_cons_of_neg (by simp [hc])

theorem opens_digit {c : Char} (h : c.isDigit) (cs : List Char) : Opens (c :: cs) := by
  refine ⟨c, cs, rfl, ?_⟩
  intro hc
  simp only [List.mem_cons, List.not_mem_nil, or_false] at hc
  rcases hc with rfl | rfl | rfl | rfl | rfl <;> cases h

theorem value?_digit {c : Char} (h : c.isDigit) (fuel : Nat) (cs : List Char) :
    value? (fuel + 1) (c :: cs) = number? false (c :: cs) := by
  rw [value?, (opens_digit h cs).skipBlank]
  split
  case h_8 => rfl
  all_goals
    rename_i heq
    cases heq
    cases h

theorem opens_literal (hl : l.IsProper) (rest : List Char) : Opens (l.write ++ rest) := by
  obtain ⟨c, cs, hwhole, hc⟩ := hl.exists_digit
  rw [Literal.write, Literal.writeUnsigned, hwhole]
  cases l.negative with
  | true => exact ⟨'-', _, rfl, by decide⟩
  | false => exact opens_digit hc _

theorem value?_literal (hl : l.IsProper) (h : Ends rest) (fuel : Nat) :
    value? (fuel + 1) (l.write ++ rest) = some (.num l.value?, rest) := by
  have hnumber := number?_append hl h
  rw [Literal.write]
  cases hsign : l.negative with
  | true =>
    rw [hsign] at hnumber
    exact hnumber
  | false =>
    rw [hsign] at hnumber
    obtain ⟨c, cs, hwhole, hc⟩ := hl.exists_digit
    rw [← hnumber, Literal.writeUnsigned, hwhole]
    exact value?_digit hc fuel _

theorem writeString_append (s : String) (rest : List Char) :
    writeString s ++ rest = '"' :: (s.toList.flatMap writeChar ++ '"' :: rest) := by
  simp only [writeString, List.cons_append, List.append_assoc, List.nil_append]

theorem value?_string (s : String) (rest : List Char) (fuel : Nat) :
    value? (fuel + 1) (writeString s ++ rest) = some (.str (some s), rest) := by
  rw [writeString_append]
  change (string? (s.toList.flatMap writeChar ++ '"' :: rest)).map _ = _
  rw [string?_append]
  rfl

theorem value?_array (h : Opens cs) (fuel : Nat) : value? (fuel + 1) ('[' :: cs) =
    (items? fuel cs).map fun (items, rest) => (.arr items, rest) := by
  have hbracket : skipBlank ('[' :: cs) = '[' :: cs := rfl
  simp only [value?, hbracket, h.skipBlank]
  split
  · obtain ⟨c, rest, heq, hc⟩ := h
    cases heq
    exact absurd hc (by decide)
  · rfl

theorem skipBlank_quote (cs : List Char) : skipBlank ('"' :: cs) = '"' :: cs := rfl

theorem skipBlank_colon (cs : List Char) : skipBlank (':' :: cs) = ':' :: cs := rfl

theorem members?_more (key : String) {v : Source} (h : value? fuel cs = some (v, ',' :: rest)) :
    members? (fuel + 1) (writeString key ++ ':' :: cs) =
      (members? fuel rest).map fun (ms, rest) => ((some key, v) :: ms, rest) := by
  simp only [writeString_append, members?, skipBlank_quote, string?_append, skipBlank_colon, h]
  rfl

theorem members?_last (key : String) {v : Source} (h : value? fuel cs = some (v, '\x7d' :: rest)) :
    members? (fuel + 1) (writeString key ++ ':' :: cs) = some ([(some key, v)], rest) := by
  simp only [writeString_append, members?, skipBlank_quote, string?_append, skipBlank_colon, h]
  rfl

theorem value?_object (cs : List Char) (fuel : Nat) : value? (fuel + 1) ('\x7b' :: '"' :: cs) =
    (members? fuel ('"' :: cs)).map fun (members, rest) => (.obj members, rest) := by
  rw [value?]
  rfl

mutual

theorem length_lt_write : ∀ (v : Json) (rest : List Char), rest.length < (write rest v).length
  | .null, rest => by
    rw [write, List.length_append]
    exact Nat.lt_add_of_pos_left (by decide)
  | .bool true, rest => by
    rw [write, List.length_append]
    exact Nat.lt_add_of_pos_left (by decide)
  | .bool false, rest => by
    rw [write, List.length_append]
    exact Nat.lt_add_of_pos_left (by decide)
  | .num n, rest => by
    rw [write, List.length_append]
    exact Nat.lt_add_of_pos_left (List.length_pos_iff.mpr n.write_ne_nil)
  | .str s, rest => by
    rw [write, writeString_append, List.length_cons, List.length_append, List.length_cons]
    omega
  | .arr items, rest => by
    have hitems := length_le_writeItems items (']' :: rest)
    rw [write, List.length_cons]
    rw [List.length_cons] at hitems
    omega
  | .obj members, rest => by
    have hmembers := length_le_writeMembers members ('\x7d' :: rest)
    rw [write, List.length_cons]
    rw [List.length_cons] at hmembers
    omega

theorem length_le_writeItems : ∀ (vs : List Json) (rest : List Char),
    rest.length ≤ (writeItems rest vs).length
  | [], rest => Nat.le_refl _
  | [v], rest => Nat.le_of_lt (length_lt_write v rest)
  | v :: w :: vs, rest => by
    have hfirst := length_lt_write v (',' :: writeItems rest (w :: vs))
    have hrest := length_le_writeItems (w :: vs) rest
    rw [writeItems]
    rw [List.length_cons] at hfirst
    omega

theorem length_le_writeMembers : ∀ (ms : List (String × Json)) (rest : List Char),
    rest.length ≤ (writeMembers rest ms).length
  | [], rest => Nat.le_refl _
  | [(k, v)], rest => by
    have hvalue := length_lt_write v rest
    rw [writeMembers, List.length_append, List.length_cons]
    omega
  | (k, v) :: m :: ms, rest => by
    have hvalue := length_lt_write v (',' :: writeMembers rest (m :: ms))
    have hrest := length_le_writeMembers (m :: ms) rest
    rw [writeMembers, List.length_append, List.length_cons]
    rw [List.length_cons] at hvalue
    omega

end

theorem opens_write (v : Json) (rest : List Char) : Opens (write rest v) := by
  cases v with
  | null => exact ⟨'n', _, rfl, by decide⟩
  | bool b =>
    cases b with
    | true => exact ⟨'t', _, rfl, by decide⟩
    | false => exact ⟨'f', _, rfl, by decide⟩
  | num n =>
    rw [write, n.write_eq]
    exact opens_literal n.isProper_literal rest
  | str s => exact ⟨'"', _, rfl, by decide⟩
  | arr items => exact ⟨'[', _, rfl, by decide⟩
  | obj members => exact ⟨'\x7b', _, rfl, by decide⟩

theorem opens_writeItems (v : Json) (vs : List Json) (rest : List Char) :
    Opens (writeItems rest (v :: vs)) := by
  cases vs with
  | nil => exact opens_write v rest
  | cons w vs => exact opens_write v _

theorem quote_writeMembers (k : String) (v : Json) (ms : List (String × Json))
    (rest : List Char) : ∃ cs, writeMembers rest ((k, v) :: ms) = '"' :: cs := by
  cases ms with
  | nil => exact ⟨_, rfl⟩
  | cons m ms => exact ⟨_, rfl⟩

theorem ends_cons {c : Char} (h : c = ',' ∨ c = ']' ∨ c = '\x7d') (cs : List Char) :
    Ends (c :: cs) := by
  intro b hb
  cases hb
  exact h

mutual

/-- What is written for a value is read as its form, whatever ends it. -/
theorem value?_write : ∀ (v : Json) {rest : List Char} {fuel : Nat},
    (write rest v).length ≤ fuel + rest.length → Ends rest →
    value? fuel (write rest v) = some (Source.written v, rest)
  | v, rest, 0, h, _ => by
    have hlength := length_lt_write v rest
    omega
  | .null, _, _ + 1, _, _ => rfl
  | .bool true, _, _ + 1, _, _ => rfl
  | .bool false, _, _ + 1, _, _ => rfl
  | .num n, rest, fuel + 1, _, hrest => by
    rw [write, n.write_eq]
    exact value?_literal n.isProper_literal hrest fuel
  | .str s, rest, fuel + 1, _, _ => value?_string s rest fuel
  | .arr [], _, _ + 1, _, _ => rfl
  | .arr (v :: vs), rest, fuel + 1, h, _ => by
    rw [write, List.length_cons] at h
    rw [write, value?_array (opens_writeItems v vs _), items?_write v vs (by omega)]
    rfl
  | .obj [], _, _ + 1, _, _ => rfl
  | .obj ((k, v) :: ms), rest, fuel + 1, h, _ => by
    rw [write, List.length_cons] at h
    have hmembers : members? fuel (writeMembers ('\x7d' :: rest) ((k, v) :: ms)) =
        some (Source.writtenMembers ((k, v) :: ms), rest) := members?_write k v ms (by omega)
    obtain ⟨cs, hcs⟩ := quote_writeMembers k v ms ('\x7d' :: rest)
    rw [hcs] at hmembers
    rw [write, hcs, value?_object, hmembers]
    rfl

theorem items?_write : ∀ (v : Json) (vs : List Json) {rest : List Char} {fuel : Nat},
    (writeItems (']' :: rest) (v :: vs)).length ≤ fuel + rest.length →
    items? fuel (writeItems (']' :: rest) (v :: vs)) = some (Source.writtenItems (v :: vs), rest)
  | v, vs, rest, 0, h => by
    have hlength := length_le_writeItems (v :: vs) (']' :: rest)
    rw [List.length_cons] at hlength
    omega
  | v, [], rest, fuel + 1, h => by
    have hends : Ends (']' :: rest) := ends_cons (.inr (.inl rfl)) rest
    rw [writeItems] at h
    rw [writeItems, items?, value?_write v (by rw [List.length_cons]; omega) hends]
    rfl
  | v, w :: vs, rest, fuel + 1, h => by
    have hends := ends_cons (.inl rfl) (writeItems (']' :: rest) (w :: vs))
    have hlength := length_le_writeItems (w :: vs) (']' :: rest)
    have hfirst := length_lt_write v (',' :: writeItems (']' :: rest) (w :: vs))
    rw [List.length_cons] at hlength hfirst
    rw [writeItems] at h
    rw [writeItems, items?, value?_write v (by rw [List.length_cons]; omega) hends]
    change (items? fuel (writeItems (']' :: rest) (w :: vs))).map _ = _
    rw [items?_write w vs (by omega)]
    rfl

theorem members?_write : ∀ (k : String) (v : Json) (ms : List (String × Json)) {rest : List Char}
    {fuel : Nat}, (writeMembers ('\x7d' :: rest) ((k, v) :: ms)).length ≤ fuel + rest.length →
    members? fuel (writeMembers ('\x7d' :: rest) ((k, v) :: ms)) =
      some (Source.writtenMembers ((k, v) :: ms), rest)
  | k, v, ms, rest, 0, h => by
    have hlength := length_le_writeMembers ((k, v) :: ms) ('\x7d' :: rest)
    rw [List.length_cons] at hlength
    omega
  | k, v, [], rest, fuel + 1, h => by
    have hends : Ends ('\x7d' :: rest) := ends_cons (.inr (.inr rfl)) rest
    rw [writeMembers, List.length_append, List.length_cons] at h
    rw [writeMembers, members?_last k (value?_write v (by rw [List.length_cons]; omega) hends)]
    rfl
  | k, v, (k', w) :: ms, rest, fuel + 1, h => by
    have hends := ends_cons (.inl rfl) (writeMembers ('\x7d' :: rest) ((k', w) :: ms))
    have hlength := length_le_writeMembers ((k', w) :: ms) ('\x7d' :: rest)
    have hfirst := length_lt_write v (',' :: writeMembers ('\x7d' :: rest) ((k', w) :: ms))
    rw [List.length_cons] at hlength hfirst
    rw [writeMembers, List.length_append, List.length_cons] at h
    rw [writeMembers, members?_more k (value?_write v (by rw [List.length_cons]; omega) hends),
      members?_write k' w ms (by omega)]
    rfl

end

end Parser

/-- The text of a value is read as its form. -/
theorem parse?_render (v : Json) : Source.parse? (render v) = some (Source.written v) := by
  have hvalue : Parser.value? ((write [] v).length + 1) (write [] v) =
      some (Source.written v, []) := Parser.value?_write v (Nat.le_succ _) nofun
  rw [Source.parse?, render, String.length_ofList, String.toList_ofList, hvalue]
  rfl

theorem Source.membersToJson?_written {members : List (String × Json)}
    (h : ∀ m ∈ members, (written m.2).toJson? levels = some m.2) (done : List (String × Json)) :
    membersToJson? levels done (writtenMembers members) = some (insertAll done members) := by
  induction members generalizing done with
  | nil => rfl
  | cons m members ih =>
    obtain ⟨key, v⟩ := m
    obtain ⟨hv, hrest⟩ := List.forall_mem_cons.mp h
    rw [writtenMembers]
    simp only [membersToJson?, hv]
    exact ih hrest _

theorem parse?_render_obj {members : List (String × Json)} (hnodup : (members.map Prod.fst).Nodup)
    (h : ∀ m ∈ members, (Source.written m.2).toJson? (maxNesting - 1) = some m.2) :
    parse? (render (.obj members)) = some (.obj members) := by
  have hall : insertAll [] members = members := insertAll_of_nodup hnodup
  have hmembers := Source.membersToJson?_written h []
  rw [hall] at hmembers
  rw [parse?, parse?_render, Option.bind_some, Source.written]
  exact congrArg (Option.map Json.obj) hmembers

end ChainKit.Json
