import OutlineServer.KeyStoreSpec
import OutlineServer.Lib.Trans

/-!
# Dying while saving

`write_text` opens `ports.json`, which truncates it, and writes the bytes of the text in pieces. `saving` are
the states in between; a process that dies in one leaves its file. A cut text is no JSON document, and the
loader takes it for an empty map (`load_cut`), so the map before or after is loaded exactly in the states of
`durable_iff`.
-/

namespace OutlineServer

structure Saving where
  file : Option ByteArray
  /-- the bytes still to be written, once the file is open -/
  left : Option ByteArray

inductive SaveEvent
  | truncate
  | write (chunk : ByteArray)

inductive Saving.Step (text : Text) : Saving → SaveEvent → Saving → Prop
  | truncate (file : Option ByteArray) : Step text ⟨file, none⟩ .truncate ⟨some .empty, some text.utf8Encode⟩
  | write (written chunk left : ByteArray) :
      Step text ⟨some written, some (chunk ++ left)⟩ (.write chunk) ⟨some (written ++ chunk), some left⟩

/-- `save` of the map `after` over a file that holds `before`. -/
def saving (before after : Ports) : Lts Saving SaveEvent where
  init x := x.left = none ∧ _load_ports x.file = .ok before.toJson
  step := Saving.Step (portsText after)

/-- The file is loaded as the map before or after. -/
def Durable (before after : Ports) (file : Option ByteArray) : Prop :=
  _load_ports file = .ok before.toJson ∨ _load_ports file = .ok after.toJson

/-- Not yet truncated, or no more than the final newline is missing; or one of the maps is empty and the cut
is between two characters. -/
def SafePoint (before after : Ports) (x : Saving) : Prop :=
  match x.left, x.file with
  | some left, some written => left.size ≤ 1 ∨ (before = Dict.empty ∨ after = Dict.empty) ∧ written.validateUTF8
  | _, _ => True

/-! ### Cut texts -/

/-- Bytes of a text that are whole characters are the bytes of a part of it. -/
theorem split_of_validateUTF8 {written left : ByteArray} {s : Text} (h : written ++ left = s.utf8Encode)
    (hv : written.validateUTF8) : ∃ t u, s = t ++ u ∧ written = t.utf8Encode ∧ left = u.utf8Encode := by
  have hsome : written.utf8Decode?.isSome := by
    rw [ByteArray.isSome_utf8Decode?_eq_validateUTF8]
    exact hv
  let t := (written.utf8Decode?.get hsome).toList
  have ht : t.utf8Encode = written := ByteArray.utf8Encode_get_utf8Decode?
  obtain ⟨u, hu⟩ := List.isPrefix_of_utf8Encode_append_eq_utf8Encode (l := t) left (ht.symm ▸ h)
  refine ⟨t, u, hu.symm, ht.symm, ?_⟩
  rw [← hu, List.utf8Encode_append, ht] at h
  exact (ByteArray.append_right_inj _).1 h

theorem read_text_invalid {bytes : ByteArray} (h : ¬ bytes.validateUTF8) :
    read_text bytes = .error .unicodeDecodeError := by
  have hnone : bytes.utf8Decode? = none := by
    rw [← Option.not_isSome_iff_eq_none, ByteArray.isSome_utf8Decode?_eq_validateUTF8]
    exact h
  simp only [read_text, hnone]

/-- The text of a map ends with a brace and a newline. -/
theorem portsText_end (ports : Ports) : ∃ d, portsText ports = d ++ ['\x7d', '\n'] := by
  unfold portsText Ports.toJson
  cases ports.items.map fun p => (strInt p.1, Entry.toJson p.2) with
  | nil => exact ⟨['\x7b'], rfl⟩
  | cons m ms =>
    refine ⟨'\x7b' :: Json.commaSep (Json.dumpsMembers 1 (m :: ms)) ++ Json.newline 0, ?_⟩
    simp [Json.dumps]

/-- A part of the text that lacks more than the final newline is no document. -/
theorem parse_cut {ports : Ports} {t u : Text} (h : portsText ports = t ++ u) (hu : 2 ≤ u.utf8Encode.size) :
    Json.parse t = none := by
  cases hp : Json.parse t with
  | none => rfl
  | some v =>
    obtain ⟨-, hblank⟩ := Json.parse_prefix (u := u) (h ▸ parse_portsText ports) hp
    have hbrace : '\x7d' ∉ u := fun hmem => by simpa [Json.isWs] using hblank _ hmem
    obtain ⟨d, hd⟩ := portsText_end ports
    rw [hd] at h
    rcases List.append_eq_append_iff.1 h with ⟨a, rfl, ha⟩ | ⟨a, rfl, rfl⟩
    · rcases List.append_eq_cons_iff.1 ha.symm with ⟨rfl, rfl⟩ | ⟨a', rfl, hnewline⟩
      · exact absurd List.mem_cons_self hbrace
      · -- the newline alone, or nothing
        rcases List.append_eq_cons_iff.1 hnewline.symm with ⟨rfl, rfl⟩ | ⟨a'', rfl, hnil⟩
        · exact absurd hu (by decide)
        · obtain ⟨-, rfl⟩ := List.append_eq_nil_iff.1 hnil.symm
          exact absurd hu (by decide)
    · exact absurd (List.mem_append_right _ (by simp)) hbrace

/-- The loader takes a cut text for an empty map. -/
theorem load_cut {ports : Ports} {written left : ByteArray} (h : written ++ left = (portsText ports).utf8Encode)
    (hv : written.validateUTF8) (hleft : 2 ≤ left.size) : _load_ports (some written) = .ok (.obj []) := by
  obtain ⟨t, u, htext, rfl, rfl⟩ := split_of_validateUTF8 h hv
  simp only [_load_ports, read_text_utf8Encode, json_loads, parse_cut htext hleft]

/-- Without the final newline the text is still the document. -/
theorem load_no_newline {ports : Ports} {written left : ByteArray} (h : written ++ left = (portsText ports).utf8Encode)
    (hleft : left.size ≤ 1) : _load_ports (some written) = .ok ports.toJson := by
  rcases Nat.le_one_iff_eq_zero_or_eq_one.1 hleft with h0 | h1
  · rw [ByteArray.size_eq_zero_iff.1 h0, ByteArray.append_empty] at h
    rw [h, load_saved]
  · have hdumps : written = (Json.dumps 0 ports.toJson).utf8Encode := by
      rw [portsText, List.utf8Encode_append] at h
      exact ((ByteArray.append_eq_append_iff_of_size_eq_right (by rw [h1]; rfl)).1 h).1
    have hparse : Json.parse (Json.dumps 0 ports.toJson) = some ports.toJson := by
      have hstops : Json.Stops [] := fun c hc => by cases hc
      simpa using Json.parse_of_spells (Json.spells_dumps 0 _ ports.wellFormed) rfl hstops
    simp only [hdumps, _load_ports, read_text_utf8Encode, json_loads, hparse]

theorem toJson_eq_empty {ports : Ports} : Json.obj [] = ports.toJson ↔ ports = Dict.empty :=
  ⟨fun h => Ports.toJson_injective h.symm, fun h => h ▸ rfl⟩

/-! ### The states of a save -/

section
variable {before after : Ports} {x : Saving}

/-- What has been written and what is left are the text of the new map. -/
theorem saving_inv (h : (saving before after).Reach x) :
    x.left = none ∧ _load_ports x.file = .ok before.toJson ∨
      ∃ written left, x = ⟨some written, some left⟩ ∧ written ++ left = (portsText after).utf8Encode := by
  induction h with
  | init h => exact .inl h
  | step _ hs ih =>
    cases hs with
    | truncate file => exact .inr ⟨_, _, rfl, ByteArray.empty_append⟩
    | write written chunk left =>
      rcases ih with ⟨hleft, -⟩ | ⟨w, l, heq, htext⟩
      · cases hleft
      · cases heq
        exact .inr ⟨_, _, rfl, by rw [ByteArray.append_assoc, htext]⟩

/-- For every stored map, every update and every point of the save. -/
theorem durable_iff (h : (saving before after).Reach x) : Durable before after x.file ↔ SafePoint before after x := by
  rcases saving_inv h with ⟨hleft, hfile⟩ | ⟨written, left, rfl, htext⟩
  · refine iff_of_true (.inl hfile) ?_
    unfold SafePoint
    rw [hleft]
    trivial
  change Durable before after (some written) ↔ left.size ≤ 1 ∨ (before = Dict.empty ∨ after = Dict.empty) ∧
    written.validateUTF8
  unfold Durable
  by_cases hsize : left.size ≤ 1
  · exact iff_of_true (.inr (load_no_newline htext hsize)) (.inl hsize)
  rw [or_iff_right hsize]
  by_cases hv : written.validateUTF8
  · rw [load_cut htext hv (by omega), and_iff_left hv, Except.ok.injEq, Except.ok.injEq, toJson_eq_empty,
      toJson_eq_empty]
  · refine iff_of_false ?_ fun h => hv h.2
    simp [_load_ports, read_text_invalid hv]

end

/-! ### The second key -/

def oneKey : Ports := Dict.empty.set 444 (newEntry (.str "x".toList) DEFAULT_METHOD "a".toList)

def anotherKey : Ports := oneKey.set 445 (newEntry (.str "y".toList) DEFAULT_METHOD "b".toList)

/-- The file has been truncated. -/
theorem reach_truncated : (saving oneKey anotherKey).Reach ⟨some .empty, some (portsText anotherKey).utf8Encode⟩ := by
  have hinit : (saving oneKey anotherKey).init ⟨some (portsText oneKey).utf8Encode, none⟩ := ⟨rfl, load_saved oneKey⟩
  exact .step (.init hinit) (Saving.Step.truncate _)

theorem durable_iff_written : Durable oneKey anotherKey (some (portsText anotherKey).utf8Encode) := by
  have hstep : Saving.Step (portsText anotherKey) ⟨some .empty, some (portsText anotherKey).utf8Encode⟩
      (.write (portsText anotherKey).utf8Encode) ⟨some (portsText anotherKey).utf8Encode, some .empty⟩ := by
    have := (@Saving.Step.write (portsText anotherKey)) .empty (portsText anotherKey).utf8Encode .empty
    simpa using this
  exact (durable_iff (reach_truncated.step hstep)).2 (.inl (by decide))

/-- A process that dies after the truncation leaves an empty map in the place of one key or two. -/
theorem truncation_loses : ∃ x, (saving oneKey anotherKey).Reach x ∧ ¬ Durable oneKey anotherKey x.file := by
  refine ⟨_, reach_truncated, ?_⟩
  have hload : _load_ports (some .empty) = .ok (.obj []) := by
    simp only [_load_ports, read_text, ByteArray.utf8Decode?_empty]
    rfl
  rintro (h | h)
  · have := congrArg Dict.keys (toJson_eq_empty.1 (Except.ok.inj (hload.symm.trans h)))
    revert this
    decide
  · have := congrArg Dict.keys (toJson_eq_empty.1 (Except.ok.inj (hload.symm.trans h)))
    revert this
    decide

end OutlineServer
