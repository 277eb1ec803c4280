import EventRelay.Proofs.Building
import EventRelay.Proofs.Landing
import EventRelay.Dispatch

/-!
# From a log to a call

A log carries a value for each parameter of its event: some in topics, the others in the data. The
relay decodes the log, picks the values of the named fields and encodes a call with them. What comes
out is the selector of the method and the encoding of the named values, whatever else the event has
and wherever in it the named fields stand.

Main statements:

* `Abi.Signature.decode_of_carries`: each field of a decoded log has the value that was put into it;
* `Abi.Signature.decode_of_crowded`: an event with more than three indexed fields is not decoded;
* `Abi.Registry.call_of_log`: the call is made of the named values.
-/

namespace EventRelay.Abi

/-- A parameter of an event, with its type and the value that a log carries for it. -/
structure Carried where
  input : Input
  kind : Kind
  value : Value

namespace Carried

variable (digest : Value → Word)

/-- The indexed ones of several parameters. -/
def indexed (cs : List Carried) : List Carried := cs.filter (·.input.indexed)

/-- Those of several parameters that lie in the data. -/
def body (cs : List Carried) : List Carried := cs.filter (!·.input.indexed)

/-- Whether the parameter is indexed by a digest of its value. -/
def isDigested (c : Carried) : Bool := c.input.indexed && !c.kind.isWord

/-- The topic of an indexed parameter: the word of its value, or a digest. -/
def topic (c : Carried) : Word :=
  if c.kind.isWord then Word.ofBytes c.value.encode else digest c.value

/-- The type that the parameter decodes to. -/
def seenKind (c : Carried) : Kind := if c.isDigested then .fixedBytes 32 else c.kind

/-- The value that the parameter decodes to: its own, or the digest that stands for it. -/
def seen (c : Carried) : Value :=
  if c.isDigested then .fixedBytes 32 (digest c.value) else c.value

variable {digest} {c : Carried} {cs : List Carried}

/-- The parameter as a log is built with it, with a digest to stand in for its value. -/
def entry (digest : Value → Word) (c : Carried) : Entry :=
  ⟨c.input, c.kind, c.value, digest c.value⟩

theorem topics_entries (cs : List Carried) :
    Entry.topics (cs.map (entry digest)) = (indexed cs).map (·.topic digest) := by
  rw [Entry.topics, List.filter_map, List.map_map]
  rfl

theorem inData_entries (cs : List Carried) :
    Entry.inData (cs.map (entry digest)) = (body cs).map (entry digest) := by
  rw [Entry.inData, List.filter_map]
  rfl

theorem values_entries (cs : List Carried) :
    Entry.values (cs.map (entry digest)) = (body cs).map (·.value) := by
  rw [Entry.values, inData_entries, List.map_map]
  rfl

/-- What is seen of a parameter is of the type it decodes to. -/
theorem holds_seen (h : c.kind.holds c.value = true) :
    c.seenKind.holds (c.seen digest) = true := by
  rw [seenKind, seen]
  cases c.isDigested with
  | true => rfl
  | false => exact h

end Carried

namespace Signature

open Carried (indexed body)

variable {digest : Value → Word} {s : Signature} {cs : List Carried} {log : Log}

/-- A log of an event carries values of the types of its parameters: in topics of their own for the
indexed ones, and encoded together for the others. -/
structure Carries (digest : Value → Word) (s : Signature) (cs : List Carried) (log : Log) :
    Prop where
  inputs : cs.map (·.input) = s.inputs
  resolved : ∀ c ∈ cs, c.input.param.resolve = .ok c.kind
  holds : ∀ c ∈ cs, c.kind.holds c.value = true
  topics : log.topics = s.topic :: (indexed cs).map (·.topic digest)
  data : log.data = Value.encodeAll ((body cs).map (·.value))

/-- What lies in the data is nested no deeper than a decoder goes and has no empty tuples, and the
data is no longer than offsets reach. -/
structure Plain (cs : List Carried) (log : Log) : Prop where
  nested : ∀ c ∈ body cs, c.kind.levels ≤ maxNesting
  notEmpty : ∀ c ∈ body cs, c.kind.hasEmptyTuple = false
  length : log.data.length < UInt64.size

/-- The parameter that a name stands for, the first with that name. -/
def named? (s : Signature) (cs : List Carried) (name : String) : Option Carried :=
  ((s.fields.zip cs).find? (·.1.name = name)).map (·.2)

/-- The parameters that names stand for, in the order of the names. -/
def chosen (s : Signature) (cs : List Carried) (names : List String) : List Carried :=
  names.filterMap (s.named? cs)

/-- A field with what is seen of its parameter. -/
def decodedField (digest : Value → Word) (fc : Field × Carried) : DecodedField :=
  ⟨fc.1.name, fc.1.typeName, fc.1.indexed, fc.2.seen digest⟩

/-! ## Decoding -/

theorem topic0_of_carries (h : Carries digest s cs log) : log.topic0 = some s.topic := by
  rw [Log.topic0, h.topics]
  rfl

theorem resolves_of_carries (h : Carries digest s cs log) :
    s.Resolves (cs.map fun c => (c.input, c.kind)) := by
  refine ⟨?_, fun p hp => ?_⟩
  · rw [List.map_map, ← h.inputs]
    rfl
  · obtain ⟨c, hc, rfl⟩ := List.mem_map.mp hp
    exact h.resolved c hc

/-- An event whose indexed fields do not fit in the topics is not decoded. -/
theorem decode_of_crowded {e : Event} (h : Carries digest (ofEvent e) cs log)
    (hindexed : maxTopics ≤ (indexed cs).length) :
    (ofEvent e).decode log =
      .error (.topicCount e.signature maxTopics ((indexed cs).length + 1)) := by
  have hresolves := resolves_of_carries h
  have hcount : Typed.indexed (cs.map fun c => (c.input, c.kind)) = (indexed cs).map (·.kind) := by
    rw [Typed.indexed, List.filter_map, List.map_map]
    rfl
  rw [← List.length_map (·.kind), ← hcount] at hindexed ⊢
  exact decode_of_refuses hresolves.fields_eq hresolves (.crowded (topic0_of_carries h) hindexed)

/-- **Each field of a decoded log has the value that was put into it**, or the digest that stands
for that value. -/
theorem decode_of_carries {e : Event} (h : Carries digest (ofEvent e) cs log)
    (hplain : Plain cs log) (hindexed : (indexed cs).length < maxTopics) :
    (ofEvent e).decode log = .ok ⟨e.name, e.signature,
      ((ofEvent e).fields.zip cs).map (decodedField digest)⟩ := by
  have htakes : (ofEvent e).Takes (cs.map (Carried.entry digest)) := by
    refine ⟨?_, ?_, ?_, ?_, ?_⟩
    · rw [List.map_map, ← h.inputs]
      rfl
    · exact List.forall_mem_map.mpr h.resolved
    · exact List.forall_mem_map.mpr fun c hc _ => h.holds c hc
    · rw [Carried.inData_entries]
      exact List.forall_mem_map.mpr hplain.nested
    · rw [Carried.inData_entries]
      exact List.forall_mem_map.mpr hplain.notEmpty
  have htopics :
      log.topics = (ofEvent e).topic :: Entry.topics (cs.map (Carried.entry digest)) := by
    rw [Carried.topics_entries]
    exact h.topics
  have hdata : log.data = Value.encodeAll (Entry.values (cs.map (Carried.entry digest))) ++ [] := by
    rw [Carried.values_entries, List.append_nil]
    exact h.data
  have hfew : (Entry.topics (cs.map (Carried.entry digest))).length < maxTopics := by
    rw [Carried.topics_entries, List.length_map]
    exact hindexed
  rw [htakes.decode htakes.resolves.fields_eq hfew htopics hdata hplain.length, List.map_map,
    List.zipWith_map_right, List.zip, List.map_zipWith]
  rfl

/-! ## Picking and encoding -/

theorem get?_decoded (name : String) :
    (DecodedLog.mk s.name s.text ((s.fields.zip cs).map (decodedField digest))).get? name =
      (s.named? cs name).map (·.seen digest) := by
  rw [DecodedLog.get?, named?, List.find?_map, Option.map_map, Option.map_map]
  rfl

theorem named?_isSome {e : Event} (h : Carries digest (ofEvent e) cs log) {name : String}
    (hname : (ofEvent e).hasField name = true) : ((ofEvent e).named? cs name).isSome = true := by
  have hlen : (ofEvent e).fields.length ≤ cs.length := by
    have hfields : (ofEvent e).fields.length = (ofEvent e).inputs.length := by
      simp [ofEvent, fieldsOf]
    exact Nat.le_of_eq (by rw [hfields, ← h.inputs, List.length_map])
  have hany : ((ofEvent e).fields.zip cs).any (·.1.name = name) = (ofEvent e).hasField name := by
    rw [hasField, ← List.map_fst_zip hlen, List.any_map, List.map_fst_zip hlen]
    rfl
  rw [named?, Option.isSome_map, List.isSome_find?, hany, hname]

theorem project_of_get? {d : DecodedLog} {names : List String}
    (hget : ∀ name, d.get? name = (s.named? cs name).map (·.seen digest))
    (hnames : ∀ name ∈ names, (s.named? cs name).isSome = true) :
    d.project names = .ok ((s.chosen cs names).map (·.seen digest)) := by
  induction names with
  | nil => rfl
  | cons name names ih =>
    obtain ⟨c, hc⟩ := Option.isSome_iff_exists.mp (hnames name List.mem_cons_self)
    have hrest := ih fun name hname => hnames name (List.mem_cons_of_mem _ hname)
    rw [DecodedLog.project, hget, hc, chosen, List.filterMap_cons_some hc]
    exact bind_eq_ok.mpr ⟨_, hrest, rfl⟩

theorem mem_of_mem_chosen {names : List String} {c : Carried} (hc : c ∈ s.chosen cs names) :
    c ∈ cs := by
  obtain ⟨name, -, hname⟩ := List.mem_filterMap.mp hc
  obtain ⟨⟨f, c'⟩, hfound, rfl⟩ := Option.map_eq_some_iff.mp hname
  exact (List.of_mem_zip (List.mem_of_find?_eq_some hfound)).2

end Signature

namespace Registry

/-- Values of the parameters' types are taken as they are. -/
theorem coerceAll_of_holds {digest : Value → Word} {method : String} {params : List Param}
    {cs : List Carried} (h : params.map (·.resolve) = cs.map fun c => .ok c.seenKind)
    (hholds : ∀ c ∈ cs, c.seenKind.holds (c.seen digest) = true) :
    coerceAll method params (cs.map (·.seen digest)) = .ok (cs.map (·.seen digest)) := by
  induction params generalizing cs with
  | nil =>
    obtain rfl := List.map_eq_nil_iff.mp h.symm
    rfl
  | cons p params ih =>
    cases cs with
    | nil => cases h
    | cons c cs =>
      obtain ⟨hp, hrest⟩ := List.cons.inj h
      have hcoerce : coerce c.seenKind (c.seen digest) = .ok (c.seen digest) := by
        rw [coerce, hholds c List.mem_cons_self, if_pos rfl]
      have hvalues := ih hrest fun c hc => hholds c (List.mem_cons_of_mem _ hc)
      have hp : p.resolve = .ok c.seenKind := hp
      rw [List.map_cons, coerceAll_of_coerce hp hcoerce, hvalues]
      rfl

variable {i : Interface} {s : Signature} {digest : Value → Word} {cs : List Carried} {log : Log}
  {names : List String} {r : Registry} {method : String} {f : Function}

/-- A log of an event of a described contract, names of its fields, and a method that takes what the
named fields decode to. -/
structure Forwardable (i : Interface) (s : Signature) (digest : Value → Word) (cs : List Carried)
    (log : Log) (names : List String) (r : Registry) (method : String) (f : Function) : Prop where
  event : s ∈ (ofInterface i).events
  carries : s.Carries digest cs log
  plain : Signature.Plain cs log
  named : ∀ name ∈ names, s.hasField name = true
  method : r.method? method names.length = some f
  types : f.inputs.map (·.resolve) = (s.chosen cs names).map fun c => .ok c.seenKind

namespace Forwardable

theorem named?_isSome (h : Forwardable i s digest cs log names r method f) :
    ∀ name ∈ names, (s.named? cs name).isSome = true := by
  obtain ⟨e, -, rfl⟩ := List.mem_map.mp (mem_signatures h.event)
  exact fun name hname => Signature.named?_isSome h.carries (h.named name hname)

/-- The log is decoded, and what is seen of the named fields is picked. -/
theorem decoded (h : Forwardable i s digest cs log names r method f)
    (hindexed : (Carried.indexed cs).length < Signature.maxTopics) :
    ∃ d, s.decode log = .ok d ∧
      d.project names = .ok ((s.chosen cs names).map (·.seen digest)) := by
  have hnamed := h.named?_isSome
  obtain ⟨e, -, rfl⟩ := List.mem_map.mp (mem_signatures h.event)
  exact ⟨_, Signature.decode_of_carries h.carries h.plain hindexed,
    Signature.project_of_get? Signature.get?_decoded hnamed⟩

/-- What is seen of the named fields is encoded as it is. -/
theorem encoded (h : Forwardable i s digest cs log names r method f) :
    r.encodeCall method ((s.chosen cs names).map (·.seen digest)) =
      .ok (f.selector ++ Value.encodeAll ((s.chosen cs names).map (·.seen digest))) := by
  have hholds : ∀ c ∈ s.chosen cs names, c.seenKind.holds (c.seen digest) = true := fun c hc =>
    Carried.holds_seen (h.carries.holds c (Signature.mem_of_mem_chosen hc))
  have hcount : ((s.chosen cs names).map (·.seen digest)).length = names.length := by
    rw [List.length_map, Signature.chosen, List.filterMap_length_eq_length]
    exact h.named?_isSome
  rw [encodeCall_of_method? (hcount ▸ h.method), coerceAll_of_holds h.types hholds]
  rfl

end Forwardable

/-- **A call carries what the log carries under the names.** The event is found by the topic of its
log; of the log each field is decoded, the named values are picked in the order of the names, and
the call is the selector of the method and their encoding. No other field has a part in it. -/
theorem call_of_log (h : Forwardable i s digest cs log names r method f)
    (hindexed : (Carried.indexed cs).length < Signature.maxTopics) :
    log.topic0.bind (ofInterface i).resolve? = some s ∧
    ∃ d, s.decode log = .ok d ∧
      d.project names = .ok ((s.chosen cs names).map (·.seen digest)) ∧
      r.encodeCall method ((s.chosen cs names).map (·.seen digest)) =
        .ok (f.selector ++ Value.encodeAll ((s.chosen cs names).map (·.seen digest))) ∧
      f.selector.length = 4 := by
  obtain ⟨d, hd, hproject⟩ := h.decoded hindexed
  refine ⟨?_, d, hd, hproject, h.encoded, ?_⟩
  · rw [Signature.topic0_of_carries h.carries]
    exact resolve?_of_mem h.event
  · rw [Function.selector, List.length_take, Hash.Keccak.length_digest]
    rfl

/-! ## Logs of fixed events -/

/-- The digest of a text is that of its bytes, and that of numbers side by side that of their
words. -/
def digestOf : Value → Word
  | .string s => Word.keccak (Text.Utf8.encode s)
  | v => Word.keccak v.encode

/-- An event with the parameters of some values. -/
def eventOf (name : String) (cs : List Carried) : Event := ⟨name, cs.map (·.input), false⟩

/-- A log of that event with those values. -/
def logOf (name : String) (cs : List Carried) : Log :=
  { address := .zero
    topics := (Signature.ofEvent (eventOf name cs)).topic ::
      (Carried.indexed cs).map (·.topic digestOf)
    data := Value.encodeAll ((Carried.body cs).map (·.value))
    block := none
    index := none
    transaction := none }

/-- A registry of methods alone. -/
def ofMethods (fs : List Function) : Registry := ofInterface ⟨fs, []⟩

theorem forwardable_logOf {name : String}
    (hresolved : ∀ c ∈ cs, c.input.param.resolve = .ok c.kind)
    (hholds : ∀ c ∈ cs, c.kind.holds c.value = true)
    (hplain : Signature.Plain cs (logOf name cs))
    (hnamed : ∀ n ∈ names, (Signature.ofEvent (eventOf name cs)).hasField n = true)
    (hmethod : r.method? method names.length = some f)
    (htypes : f.inputs.map (·.resolve) =
      ((Signature.ofEvent (eventOf name cs)).chosen cs names).map fun c => .ok c.seenKind) :
    Forwardable ⟨[], [eventOf name cs]⟩ (.ofEvent (eventOf name cs)) digestOf cs (logOf name cs)
      names r method f :=
  ⟨List.mem_singleton_self _, ⟨rfl, hresolved, hholds, rfl, rfl⟩, hplain, hnamed, hmethod, htypes⟩

/-- `Sold(string[] items, address indexed buyer, string indexed label, uint256 price)`: two items at
three. -/
def sold : List Carried :=
  [⟨⟨⟨"items", "string[]", []⟩, false⟩, .array .string, .array [.string "pen", .string "ink"]⟩,
    ⟨⟨⟨"buyer", "address", []⟩, true⟩, .address, .address .zero⟩,
    ⟨⟨⟨"label", "string", []⟩, true⟩, .string, .string "office"⟩,
    ⟨⟨⟨"price", "uint256", []⟩, false⟩, .uint 256, .uint 256 3⟩]

/-- `record(uint256 price, string[] items, bytes32 label, uint256 total)` -/
def record : Function :=
  ⟨"record", [⟨"price", "uint256", []⟩, ⟨"items", "string[]", []⟩, ⟨"label", "bytes32", []⟩,
    ⟨"total", "uint256", []⟩]⟩

theorem forwardable_sold : Forwardable ⟨[], [eventOf "Sold" sold]⟩ (.ofEvent (eventOf "Sold" sold))
    digestOf sold (logOf "Sold" sold) ["price", "items", "label", "price"] (ofMethods [record])
    "record" record := by
  refine forwardable_logOf ?_ ?_ ⟨?_, ?_, ?_⟩ ?_ rfl ?_
  · intro c hc
    simp only [sold, List.mem_cons, List.not_mem_nil, or_false] at hc
    obtain rfl | rfl | rfl | rfl := hc
    · exact Param.resolve_strings _
    · exact Param.resolve_of_rootName? "address" [] [] rfl rfl rfl rfl
    · exact Param.resolve_of_rootName? "string" [] [] rfl rfl rfl rfl
    · exact Param.resolve_uint256 _
  · decide
  · decide
  · decide
  · decide +kernel
  · decide
  · simp only [record, List.map_cons, List.map_nil, Param.resolve_uint256, Param.resolve_strings,
      Param.resolve_bytes32]
    rfl

/-- The fields are called in another order than they stand, and one of them twice; the label, which
is indexed, stands for its digest. -/
theorem call_of_log_sold : ∃ d,
  (Signature.ofEvent (eventOf "Sold" sold)).decode (logOf "Sold" sold) =
      .ok d ∧
    ∃ args, d.project ["price", "items", "label", "price"] = .ok args ∧
    args = [.uint 256 3, .array [.string "pen", .string "ink"],
      .fixedBytes 32 (Word.keccak (Text.Utf8.encode "office")), .uint 256 3] ∧
    (ofMethods [record]).encodeCall "record" args =
      .ok (record.selector ++ Value.encodeAll args) := by
  obtain ⟨-, d, hd, hproject, hcall, -⟩ := call_of_log forwardable_sold (by decide)
  exact ⟨d, hd, _, hproject, rfl, hcall⟩

/-- `Crowded(uint256 indexed a, uint256 indexed b, uint256 indexed c, uint256 indexed d)` -/
def crowded : List Carried :=
  [("a", 1), ("b", 2), ("c", 3), ("d", 4)].map fun (name, n) =>
    ⟨⟨⟨name, "uint256", []⟩, true⟩, .uint 256, .uint 256 (BitVec.ofNat 256 n)⟩

/-- `Paired((uint256 x, uint256 y) indexed pair)` -/
def paired : List Carried :=
  [⟨⟨⟨"pair", "tuple", [⟨"x", "uint256", []⟩, ⟨"y", "uint256", []⟩]⟩, true⟩,
    .tuple [.uint 256, .uint 256], .tuple [.uint 256 1, .uint 256 2]⟩]

/-- `put(uint256 n)` -/
def putNumber : Function := ⟨"put", [⟨"n", "uint256", []⟩]⟩

/-- `put(bytes32 digest)` -/
def putDigest : Function := ⟨"put", [⟨"digest", "bytes32", []⟩]⟩

theorem forwardable_crowded : Forwardable ⟨[], [eventOf "Crowded" crowded]⟩
    (.ofEvent (eventOf "Crowded" crowded)) digestOf crowded (logOf "Crowded" crowded) ["a"]
    (ofMethods [putNumber]) "put" putNumber := by
  refine forwardable_logOf ?_ ?_ ⟨?_, ?_, ?_⟩ ?_ rfl ?_
  · intro c hc
    obtain ⟨_, -, rfl⟩ := List.mem_map.mp hc
    exact Param.resolve_uint256 _
  · decide
  · decide
  · decide
  · decide +kernel
  · decide
  · simp only [putNumber, List.map_cons, List.map_nil, Param.resolve_uint256]
    rfl

theorem forwardable_paired : Forwardable ⟨[], [eventOf "Paired" paired]⟩
    (.ofEvent (eventOf "Paired" paired)) digestOf paired (logOf "Paired" paired) ["pair"]
    (ofMethods [putDigest]) "put" putDigest := by
  refine forwardable_logOf ?_ ?_ ⟨?_, ?_, ?_⟩ ?_ rfl ?_
  · intro c hc
    obtain rfl := List.mem_singleton.mp hc
    have hparse : Specifier.parse? "tuple" = some (.root "tuple" []) :=
      Specifier.parse?_of_rootName? rfl rfl rfl
    rw [Param.resolve, hparse]
    simp only [Param.resolveAll, Param.resolve_uint256]
    rfl
  · decide
  · decide
  · decide
  · decide +kernel
  · decide
  · simp only [putDigest, List.map_cons, List.map_nil, Param.resolve_bytes32]
    rfl

/-- An event with four indexed fields is not decoded. And it is not the dynamic types alone whose
values are not seen: of an indexed pair of numbers, too, the call has the digest. -/
theorem crowded_not_decoded :
    (Forwardable ⟨[], [eventOf "Crowded" crowded]⟩ (.ofEvent (eventOf "Crowded" crowded)) digestOf
        crowded (logOf "Crowded" crowded) ["a"] (ofMethods [putNumber]) "put" putNumber ∧
      (Signature.ofEvent (eventOf "Crowded" crowded)).decode (logOf "Crowded" crowded) =
        .error (.topicCount "Crowded(uint256,uint256,uint256,uint256)" 4 5)) ∧
    Forwardable ⟨[], [eventOf "Paired" paired]⟩ (.ofEvent (eventOf "Paired" paired)) digestOf
        paired (logOf "Paired" paired) ["pair"] (ofMethods [putDigest]) "put" putDigest ∧
      ∃ d args,
        (Signature.ofEvent (eventOf "Paired" paired)).decode (logOf "Paired" paired) = .ok d ∧
        d.project ["pair"] = .ok args ∧
        (ofMethods [putDigest]).encodeCall "put" args ≠
          .ok (putDigest.selector ++ Value.encodeAll (paired.map (·.value))) := by
  refine ⟨⟨forwardable_crowded, ?_⟩, forwardable_paired, ?_⟩
  · exact Signature.decode_of_crowded forwardable_crowded.carries (by decide)
  · obtain ⟨d, hd, hproject⟩ := forwardable_paired.decoded (by decide)
    refine ⟨d, _, hd, hproject, fun heq => ?_⟩
    -- The pair would be two words, and the digest is one.
    rw [forwardable_paired.encoded] at heq
    have hlen := congrArg List.length (List.append_cancel_left (Except.ok.inj heq))
    have hone (w : Word) : (Value.encodeAll [.fixedBytes 32 w]).length = 32 := by
      rw [Value.encodeAll, Part.length_layout]
      simp [Value.parts, Value.encode, Value.isDynamic, Part.headLengths, Part.headLength,
        Part.tails]
    have htwo : (Value.encodeAll (paired.map (·.value))).length = 64 := by decide
    rw [htwo] at hlen
    exact absurd ((hone _).symm.trans hlen) (by decide)

end Registry

end EventRelay.Abi
