import EventRelay.Log.Building
import EventRelay.Proofs.Contents

/-!
# Logs that are built are decoded

A log is built of an event's signature, a topic for each indexed parameter and the encoding of the
other values. A topic holds the word of an elementary value; of any other value it can hold no more
than a stand-in. Decoding gives the values back, and the stand-ins as they are, with any bytes
behind the data (`Signature.decode_built`).
-/

namespace EventRelay.Abi

/-- A parameter of an event with the value that a log is built with. -/
structure Entry where
  input : Input
  kind : Kind
  value : Value
  /-- The topic in place of a value that is not a word. -/
  digest : Word

namespace Entry

/-- The topic of an indexed parameter. -/
def topic (x : Entry) : Word :=
  if x.kind.isWord then Word.ofBytes x.value.encode else x.digest

/-- What is decoded: the value, or the topic that stands in for it. -/
def seen (x : Entry) : Value :=
  if x.input.indexed && !x.kind.isWord then .fixedBytes 32 x.digest else x.value

/-- The parameters with their types. -/
def typed (xs : List Entry) : Typed := xs.map fun x => (x.input, x.kind)

/-- The parameters that lie in the data. -/
def inData (xs : List Entry) : List Entry := xs.filter (!·.input.indexed)

/-- The topics of the indexed parameters. -/
def topics (xs : List Entry) : List Word := (xs.filter (·.input.indexed)).map topic

/-- The values in the data. -/
def values (xs : List Entry) : List Value := (inData xs).map (·.value)

/-- The fields from a position on, with what is decoded. -/
def fields (position : Nat) (xs : List Entry) : List DecodedField :=
  List.zipWith Field.withValue ((typed xs).fields position) (xs.map seen)

variable {x : Entry} {xs : List Entry}

theorem topics_cons_of_indexed (h : x.input.indexed = true) :
    topics (x :: xs) = x.topic :: topics xs := by
  rw [topics, List.filter_cons_of_pos (by simpa using h)]
  rfl

theorem topics_cons_of_inData (h : x.input.indexed = false) : topics (x :: xs) = topics xs := by
  rw [topics, List.filter_cons_of_neg (by simp [h])]
  rfl

theorem values_cons_of_indexed (h : x.input.indexed = true) : values (x :: xs) = values xs := by
  rw [values, inData, List.filter_cons_of_neg (by simp [h])]
  rfl

theorem values_cons_of_inData (h : x.input.indexed = false) :
    values (x :: xs) = x.value :: values xs := by
  rw [values, inData, List.filter_cons_of_pos (by simp [h])]
  rfl

theorem inData_typed (xs : List Entry) : (typed xs).inData = (inData xs).map (·.kind) := by
  rw [Typed.inData, typed, List.filter_map, List.map_map]
  rfl

/-- There are as many topics as indexed inputs. -/
theorem length_topics (xs : List Entry) : (topics xs).length = (typed xs).indexed.length := by
  rw [topics, Typed.indexed, typed, List.filter_map, List.length_map, List.length_map,
    List.length_map]
  rfl

/-- The value of a word is read from its topic. -/
theorem ofWord?_topic (hk : x.kind.isWord = true) (h : x.kind.holds x.value = true) :
    x.kind.ofWord? x.topic = some x.value := by
  obtain ⟨w, hencode, hw⟩ := Kind.word_of_holds hk h
  rw [topic, if_pos hk, hencode, Word.ofBytes_toBytes, hw]

/-- The values in the data hold their kinds when every entry does. -/
theorem holdsAll_values (h : ∀ x ∈ inData xs, x.kind.holds x.value = true) :
    Kind.holdsAll ((inData xs).map (·.kind)) (values xs) = true := by
  rw [values]
  generalize inData xs = ys at h
  induction ys with
  | nil => rfl
  | cons y ys ih =>
    rw [List.map_cons, List.map_cons, Kind.holdsAll, h y List.mem_cons_self,
      ih fun y hy => h y (List.mem_cons_of_mem _ hy)]
    rfl

/-- The topics and the values hold what is to be decoded. A value that only has a stand-in need not
be one of its type. -/
theorem contents (n : Nat)
    (h : ∀ x ∈ xs, x.input.indexed = false ∨ x.kind.isWord = true → x.kind.holds x.value = true) :
    Contents n (typed xs) (topics xs) (values xs) (fields n xs) := by
  induction xs generalizing n with
  | nil => exact .nil
  | cons x xs ih =>
    have hrest := ih (n + 1) fun x hx => h x (List.mem_cons_of_mem _ hx)
    have hx := h x List.mem_cons_self
    cases hi : x.input.indexed with
    | true =>
      rw [topics_cons_of_indexed hi, values_cons_of_indexed hi]
      cases hk : x.kind.isWord with
      | true =>
        have hseen : x.seen = x.value := by rw [seen, hi, hk]; rfl
        rw [fields, List.map_cons, hseen]
        exact .word hi (ofWord?_topic hk (hx (.inr hk))) (hx (.inr hk)) hrest
      | false =>
        have hseen : x.seen = .fixedBytes 32 x.topic := by rw [seen, topic, hi, hk]; rfl
        rw [fields, List.map_cons, hseen]
        exact .digest hi hk hrest
    | false =>
      have hseen : x.seen = x.value := by rw [seen, hi]; rfl
      rw [topics_cons_of_inData hi, values_cons_of_inData hi, fields, List.map_cons, hseen]
      exact .inData hi (hx (.inl hi)) hrest

end Entry

namespace Signature

variable {i : Interface} {s : Signature} {xs : List Entry} {log : Log}

/-- The parameters of an event with values of their types, nested no deeper than a decoder goes and
without empty tuples where they lie in the data. -/
structure Takes (s : Signature) (xs : List Entry) : Prop where
  inputs : xs.map (·.input) = s.inputs
  resolved : ∀ x ∈ xs, x.input.param.resolve = .ok x.kind
  holds : ∀ x ∈ xs, x.input.indexed = false ∨ x.kind.isWord = true → x.kind.holds x.value = true
  nested : ∀ x ∈ Entry.inData xs, x.kind.levels ≤ maxNesting
  notEmpty : ∀ x ∈ Entry.inData xs, x.kind.hasEmptyTuple = false

namespace Takes

/-- The types of an event that takes its entries can be resolved. -/
theorem resolves (h : s.Takes xs) : s.Resolves (Entry.typed xs) := by
  refine ⟨?_, fun p hp => ?_⟩
  · rw [Entry.typed, List.map_map, ← h.inputs]
    rfl
  · obtain ⟨x, hx, rfl⟩ := List.mem_map.mp hp
    exact h.resolved x hx

/-- The values in the data are read back. -/
theorem decodeAll (h : s.Takes xs) {junk : Bytes}
    (hlen : (Value.encodeAll (Entry.values xs) ++ junk).length < UInt64.size) :
    Kind.decodeAll (Entry.typed xs).inData (Value.encodeAll (Entry.values xs) ++ junk) =
      .ok (Entry.values xs) := by
  rw [Entry.inData_typed]
  refine Kind.decodeAll_encodeAll ?_ (Entry.holdsAll_values ?_) hlen (Kind.levelsAll_le ?_)
  · intro k hk
    obtain ⟨x, hx, rfl⟩ := List.mem_map.mp hk
    exact Param.full_of_resolve _ _ (h.resolved x (List.mem_filter.mp hx).1) (h.notEmpty x hx)
  · intro x hx
    obtain ⟨hx, hi⟩ := List.mem_filter.mp hx
    exact h.holds x hx (.inl (Bool.not_eq_true' _ ▸ hi))
  · intro k hk
    obtain ⟨x, hx, rfl⟩ := List.mem_map.mp hk
    exact h.nested x hx

/-- A log with the topics and the values of the parameters is decoded to them. -/
theorem decode (h : s.Takes xs) (hfields : s.fields = (Entry.typed xs).fields 0)
    (hfew : (Entry.topics xs).length < maxTopics) {junk : Bytes}
    (htopics : log.topics = s.topic :: Entry.topics xs)
    (hdata : log.data = Value.encodeAll (Entry.values xs) ++ junk)
    (hlen : log.data.length < UInt64.size) :
    s.decode log =
      .ok ⟨s.name, s.text, List.zipWith Field.withValue s.fields (xs.map Entry.seen)⟩ := by
  have hdecoded := h.decodeAll (hdata ▸ hlen)
  have hcontents := Entry.contents 0 h.holds
  rw [Entry.length_topics] at hfew
  rw [hfields]
  refine decode_of_yields hfields h.resolves
    ⟨rfl, rfl, ?_, ⟨hfew, htopics, ?_⟩, hdata ▸ hdecoded, hcontents⟩
  · rw [hfields]
    exact hcontents.fields_eq
  · exact Entry.length_topics xs

end Takes

/-- A log that is built has the topic of the event in front of the others. -/
theorem topics_ofEvent (address : Address) (signature : String) (topics : List Word)
    (values : List Value) :
    (Log.ofEvent address signature topics values).topics =
      Word.keccak (Text.Utf8.encode signature) :: topics := by
  have hadd (l : Log) : (topics.foldl Log.withTopic l).topics = l.topics ++ topics := by
    induction topics generalizing l with
    | nil => exact (List.append_nil _).symm
    | cons t ts ih =>
      rw [List.foldl_cons, ih, Log.withTopic, List.append_assoc]
      rfl
  exact hadd _

/-- **What a log is built of is what it is decoded to**: the values in the order of the parameters,
and the topics that stand in for values. The bytes behind the data and the place of the log do not
matter. -/
theorem decode_built (hs : s ∈ (Registry.ofInterface i).events) (h : s.Takes xs)
    (hfew : (Entry.topics xs).length < maxTopics) {address : Address} {junk : Bytes}
    (htopics : log.topics =
      (Log.ofEvent address s.text (Entry.topics xs) (Entry.values xs)).topics)
    (hdata : log.data =
      (Log.ofEvent address s.text (Entry.topics xs) (Entry.values xs)).data ++ junk)
    (hlen : log.data.length < UInt64.size) :
    s.decode log =
      .ok ⟨s.name, s.text, List.zipWith Field.withValue s.fields (xs.map Entry.seen)⟩ := by
  obtain ⟨e, -, rfl⟩ := List.mem_map.mp (Registry.mem_signatures hs)
  rw [topics_ofEvent] at htopics
  exact h.decode h.resolves.fields_eq hfew htopics hdata hlen

/-! ## Logs of fixed events -/

/-- An event with the parameters of some values. -/
def built (name : String) (xs : List Entry) : Signature :=
  .ofEvent ((Entry.typed xs).event name)

/-- A log of that event with those values and more bytes behind them. -/
def builtLog (name : String) (xs : List Entry) (junk : Bytes) : Log :=
  let log := Log.ofEvent .zero (built name xs).text (Entry.topics xs) (Entry.values xs)
  { log with data := log.data ++ junk }

/-- `Mixed(string indexed a, string[] items, string indexed b, (uint256,uint256) pair, uint256
indexed)`: one text twice, with other topics. -/
def mixed : List Entry :=
  [⟨⟨⟨"a", "string", []⟩, true⟩, .string, .string "pen", 7⟩,
    ⟨⟨⟨"items", "string[]", []⟩, false⟩, .array .string, .array [.string "pen", .string "ink"], 0⟩,
    ⟨⟨⟨"b", "string", []⟩, true⟩, .string, .string "pen", 8⟩,
    ⟨⟨Typed.numbers "pair", false⟩, .tuple [.uint 256, .uint 256],
      .tuple [.uint 256 1, .uint 256 2], 0⟩,
    ⟨⟨⟨"", "uint256", []⟩, true⟩, .uint 256, .uint 256 3, 0⟩]

/-- `Full(uint256 indexed a, uint256 indexed b, uint256 indexed c, uint256 indexed d)` -/
def full : List Entry :=
  [("a", 1), ("b", 2), ("c", 3), ("d", 4)].map fun (name, n) =>
    ⟨⟨⟨name, "uint256", []⟩, true⟩, .uint 256, .uint 256 (BitVec.ofNat 256 n), 0⟩

theorem takes_mixed : (built "Mixed" mixed).Takes mixed := by
  refine ⟨rfl, fun x hx => ?_, ?_, ?_, ?_⟩
  · simp only [mixed, List.mem_cons, List.not_mem_nil, or_false] at hx
    obtain rfl | rfl | rfl | rfl | rfl := hx
    · exact Param.resolve_of_rootName? "string" [] [] rfl rfl rfl rfl
    · exact Param.resolve_strings _
    · exact Param.resolve_of_rootName? "string" [] [] rfl rfl rfl rfl
    · exact Typed.resolve_numbers _
    · exact Param.resolve_uint256 _
  · decide
  · decide
  · decide

theorem takes_full : (built "Full" full).Takes full := by
  refine ⟨rfl, fun x hx => ?_, ?_, ?_, ?_⟩
  · obtain ⟨_, -, rfl⟩ := List.mem_map.mp hx
    exact Param.resolve_uint256 _
  · decide
  · decide
  · decide

/-- Indexed strings come back as the words of their topics, and a nameless input by its place. -/
theorem decode_built_mixed : (built "Mixed" mixed).decode (builtLog "Mixed" mixed [1, 2, 3]) =
    .ok ⟨"Mixed", "Mixed(string,string[],string,(uint256,uint256),uint256)",
      [⟨"a", "string", true, .fixedBytes 32 7⟩,
        ⟨"items", "string[]", false, .array [.string "pen", .string "ink"]⟩,
        ⟨"b", "string", true, .fixedBytes 32 8⟩,
        ⟨"pair", "(uint256,uint256)", false, .tuple [.uint 256 1, .uint 256 2]⟩,
        ⟨"4", "uint256", true, .uint 256 3⟩]⟩ := by
  have hmem : built "Mixed" mixed ∈
      (Registry.ofInterface ⟨[], [(Entry.typed mixed).event "Mixed"]⟩).events :=
    List.mem_singleton_self _
  have htopics : (builtLog "Mixed" mixed [1, 2, 3]).topics = (Log.ofEvent .zero
      (built "Mixed" mixed).text (Entry.topics mixed) (Entry.values mixed)).topics := rfl
  exact decode_built hmem takes_mixed (by decide) htopics rfl (by decide +kernel)

/-- A log has a topic for the event and three more at most. -/
theorem full_not_decoded : (built "Full" full).Takes full ∧
    (built "Full" full).decode (builtLog "Full" full []) =
      .error (.topicCount "Full(uint256,uint256,uint256,uint256)" 4 5) := by
  refine ⟨takes_full, ?_⟩
  have hcrowded : maxTopics ≤ (Entry.typed full).indexed.length := by decide
  exact decode_of_refuses rfl takes_full.resolves (.crowded rfl hcrowded)

end Signature

end EventRelay.Abi
