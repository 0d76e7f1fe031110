import ChainKit.Proofs.Abi.Declared
import ChainKit.Proofs.Abi.RoundTrip

namespace ChainKit.Abi

namespace Decode
set_option autoImplicit true

/-- Reads the fields of a struct in order and keeps each value behind the name of its field. -/
def readings (value : Ty → Decode Json) : List Field → Decode (List (String × Json))
  | [] => return []
  | f :: rest => do
    if f.type.isExtension && (← atEnd) then readings value rest
    else
      let v ← part (.field f.name) (value f.type)
      return (f.name, v) :: (← readings value rest)

theorem fields_eq_readings (value : Ty → Decode Json) (done : List (String × Json))
    (fs : List Field) : fields value done fs =
      readings value fs >>= fun entries => pure (Json.insertAll done entries) := by
  induction fs generalizing done with
  | nil => rfl
  | cons f fs ih =>
    rw [fields, readings, bind_assoc]
    congr 1
    funext ended
    cases f.type.isExtension && ended with
    | true => exact ih done
    | false =>
      simp only [Bool.false_eq_true, if_false, ih, bind_assoc, pure_bind]
      rfl

/-- Fields are read in their order, and at most once. -/
theorem names_of_readings {value : Ty → Decode Json} (h : readings value fs r = .ok entries r') :
    (entries.map Prod.fst).Sublist (fs.map Field.name) := by
  induction fs generalizing r entries with
  | nil =>
    cases h
    exact .slnil
  | cons f fs ih =>
    obtain ⟨ended, r₀, hended, h⟩ := Wire.bind_eq_ok h
    cases hended
    split at h
    · exact .cons _ (ih h)
    · obtain ⟨v, r₁, -, h⟩ := Wire.bind_eq_ok h
      obtain ⟨rest, r₂, hrest, h⟩ := Wire.bind_eq_ok h
      cases h
      exact (ih hrest).cons_cons _

theorem struct_eq_ok {value : Ty → Decode Json} {s : StructType}
    (h : struct value s r = .ok w r') : ∃ entries, readings value s.fields r = .ok entries r' ∧
      w = .obj (Json.insertAll [] entries) := by
  obtain ⟨members, r₁, hmembers, h⟩ := Wire.bind_eq_ok h
  cases h
  rw [fields_eq_readings] at hmembers
  obtain ⟨entries, r₂, hentries, h⟩ := Wire.bind_eq_ok hmembers
  cases h
  exact ⟨entries, hentries, rfl⟩

end Decode

namespace TypeTable
set_option autoImplicit true

variable {d : Document} {t : TypeTable}

/-- What is requested as a struct is a declared struct, with its flattened fields. -/
theorem IsOf.exists_flattened (ht : t.IsOf d) (h : t.view name = .ok (.struct struct)) :
    ∃ s ∈ d.structs, s.name = struct ∧ ∃ fs, d.flatten s = .ok fs ∧
      (t.fieldsOf struct).map Field.name = fs.map FieldDef.name := by
  rcases (ht.means_of_view h).declares rfl with ⟨b, hb⟩ | ⟨declared, hdeclared⟩
  · cases hb
  · cases hdeclared with
    | @struct s hs =>
      obtain ⟨st, -, -, hstruct, -, fs, hfs, heach⟩ := ht.holdsStructs.mem_left hs
      have hfields : t.fieldsOf s.name = st.fields := by rw [fieldsOf, hstruct, Option.getD_some]
      refine ⟨s, hs, rfl, fs, hfs, ?_⟩
      rw [hfields]
      exact Result.map_eq_map_of_each (heach.mono fun _ _ hf => hf.1)

end TypeTable

namespace Contract
set_option autoImplicit true

/-- A struct is decoded by reading its flattened fields in order, but for extensions at the end of
the data, and storing what was read: the object has the last value that was read under each name. It
has as many members as fields were read just if these have distinct names, and then it holds just
what was read; so it does whenever the flattened fields have distinct names. -/
theorem decode_eq_readings {d : Document} {t : TypeTable} (hbuild : TypeTable.build d = .ok t)
    (hview : t.view name = .ok (.struct struct))
    (hdecode : (Contract.mk d t).decode config name bs = .ok w) :
    ∃ s ∈ d.structs, s.name = struct ∧ ∃ fs entries p members, d.flatten s = .ok fs ∧
      Decode.readings (Decode.value t config config.maxDepth) (t.fieldsOf struct) (.ofBytes bs) =
        .ok entries ⟨p, []⟩ ∧
      (entries.map Prod.fst).Sublist (fs.map FieldDef.name) ∧
      w = .obj members ∧ (members.map Prod.fst).Nodup ∧
      (∀ key, Json.member? members key = entries.reverse.lookup key) ∧
      (members.length = entries.length ↔ (entries.map Prod.fst).Nodup) ∧
      ((entries.map Prod.fst).Nodup → members = entries) ∧
      ((fs.map FieldDef.name).Nodup → members = entries) := by
  have ht := TypeTable.isOf_of_build hbuild
  obtain ⟨s, hs, hname, fs, hflatten, hfields⟩ := ht.exists_flattened hview
  obtain ⟨p, hvalue⟩ := (decode_eq_ok hview).mp hdecode
  obtain ⟨entries, hentries, rfl⟩ := Decode.struct_eq_ok hvalue
  have hnames := Decode.names_of_readings hentries
  have hnil : (([] : List (String × Json)).map Prod.fst).Nodup := List.nodup_nil
  have hall : (entries.map Prod.fst).Nodup → Json.insertAll [] entries = entries :=
    fun h => Json.insertAll_of_nodup h
  refine ⟨s, hs, hname, fs, entries, p, _, hflatten, hentries, hfields ▸ hnames, rfl,
    Json.nodup_keys_insertAll hnil entries, ?_, Json.length_insertAll_iff, hall, ?_⟩
  · intro key
    rw [Json.member?_insertAll]
    exact Option.or_none
  · intro h
    exact hall ((hfields ▸ hnames).nodup h)

def listMembers : List (String × Json) :=
  [("next", .obj [("next", .null), ("all", .arr [])]), ("all", .arr [.str "7"])]

def listBytes : Bytes := [1, 0, 0, 1, 7, 0, 0, 0, 0, 0, 0, 0]

theorem decode_eq_readings_list :
    (Contract.mk TypeTable.listDocument TypeTable.listTypes).decode {} "list" listBytes =
      .ok (.obj listMembers) ∧
    ∃ p, Decode.readings (Decode.value TypeTable.listTypes {} 64)
      (TypeTable.listTypes.fieldsOf "list") (.ofBytes listBytes) = .ok listMembers ⟨p, []⟩ := by
  have hview : TypeTable.listTypes.view "list" = .ok (.struct "list") := rfl
  have hdecode : (Contract.mk TypeTable.listDocument TypeTable.listTypes).decode {} "list"
    listBytes = .ok (.obj listMembers) := rfl
  obtain ⟨s, hs, hname, fs, entries, p, members, hflatten, hentries, -, hw, -, -, -, -, hall⟩ :=
    decode_eq_readings TypeTable.build_list hview hdecode
  have hdistinct : ∀ s ∈ TypeTable.listDocument.structs,
      ((TypeTable.listDocument.flatten s).toOption.all fun fs =>
        (fs.map FieldDef.name).Nodup) := by decide +kernel
  have hnodup := hdistinct s hs
  rw [hflatten] at hnodup
  cases hw
  rw [← hall (of_decide_eq_true hnodup)] at hentries
  exact ⟨hdecode, p, hentries⟩

def shadowDocument : Document :=
  { structs := [⟨"base", "", [⟨"id", "uint8"⟩]⟩, ⟨"derived", "base", [⟨"id", "uint8"⟩]⟩] }

def shadowTypes : TypeTable where
  structs := [⟨"base", [⟨"id", .builtin (.uint .w8)⟩]⟩,
    ⟨"derived", [⟨"id", .builtin (.uint .w8)⟩, ⟨"id", .builtin (.uint .w8)⟩]⟩]
  variants := []
  meanings :=
    { names := [("uint8", .builtin (.uint .w8)), ("base", .struct "base"),
        ("derived", .struct "derived")]
      types := [.struct "base", .struct "derived", .builtin (.uint .w8)] }

/-- Both fields are read, and the value of the first is lost. -/
theorem not_decode_eq_readings_shadow :
    TypeTable.build shadowDocument = .ok shadowTypes ∧
    Decode.readings (Decode.value shadowTypes {} 64) (shadowTypes.fieldsOf "derived")
      (.ofBytes [1, 2]) = .ok [("id", .ofNat 1), ("id", .ofNat 2)] ⟨2, []⟩ ∧
    (Contract.mk shadowDocument shadowTypes).decode {} "derived" [1, 2] =
      .ok (.obj [("id", .ofNat 2)]) :=
  ⟨by decide +kernel, rfl, rfl⟩

end Contract
end ChainKit.Abi
