import EventRelay.Log.Building
import EventRelay.Proofs.Decoding
import EventRelay.Proofs.Described
import EventRelay.Proofs.Names

/-!
# What any log decodes to

The data of a log comes from a contract and may be any bytes. What it decodes to has the declared
types all the same (`Kind.holds_of_decode`). An event has a field for each of its parameters: an
indexed one takes a topic of its own and any other a value of the data (`Contents`).

Main statements:

* `Kind.holdsAll_of_decodeAll`: decoded values are of the types that they are decoded at;
* `Signature.decode_typed`: what a log decodes to, and every way in which decoding fails.
-/

namespace EventRelay.Abi

namespace Cursor

/-- What is so of each item that is read is so of all of them, and there are as many as were asked
for. -/
theorem of_many {α : Type} {P : α → Prop} {item : Cursor → Except DataFault (α × Cursor)}
    (hitem : ∀ c x c', item c = .ok (x, c') → P x) {n : Nat} {c c' : Cursor} {xs : List α}
    (h : many item n c = .ok (xs, c')) : xs.length = n ∧ ∀ x ∈ xs, P x := by
  induction n generalizing c c' xs with
  | zero =>
    obtain ⟨rfl, -⟩ := Prod.mk.inj (Except.ok.inj h)
    exact ⟨rfl, nofun⟩
  | succ n ih =>
    rw [many] at h
    obtain ⟨⟨x, c₁⟩, hx, h⟩ := bind_eq_ok.mp h
    obtain ⟨⟨xs', c₂⟩, hxs, h⟩ := bind_eq_ok.mp h
    obtain ⟨rfl, -⟩ := Prod.mk.inj (Except.ok.inj h)
    obtain ⟨hlen, hall⟩ := ih hxs
    exact ⟨congrArg (· + 1) hlen, List.forall_mem_cons.mpr ⟨hitem _ _ _ hx, hall⟩⟩

end Cursor

namespace Kind

/-- A value that is read from a word holds its kind. -/
theorem holds_of_ofWord? {k : Kind} {w : Word} {v : Value} (h : k.ofWord? w = some v) :
    k.holds v = true := by
  cases k with
  | bool | address | function =>
    obtain rfl := Option.some.inj h
    rfl
  | int | uint | fixedBytes =>
    obtain rfl := Option.some.inj h
    exact beq_self_eq_true _
  | _ => cases h

/-- Every word can be read as a value of a kind that takes one word. -/
theorem ofWord?_isSome {k : Kind} (hk : k.isWord = true) (w : Word) :
    ∃ v, k.ofWord? w = some v := by
  cases k <;> first | exact ⟨_, rfl⟩ | cases hk

/-- A value that is decoded from one word holds its kind. -/
theorem holds_of_decodeWord {k : Kind} (hk : k.isWord = true) {c c' : Cursor} {v : Value}
    (h : k.decodeWord c = .ok (v, c')) : k.holds v = true := by
  obtain ⟨⟨w, c₁⟩, -, h⟩ := bind_eq_ok.mp h
  obtain ⟨rfl, -⟩ := Prod.mk.inj (Except.ok.inj h)
  obtain ⟨v, hv⟩ := ofWord?_isSome hk w
  rw [hv, Option.getD_some]
  exact holds_of_ofWord? hv

/-- The values of a sequence are read at some place. -/
theorem items_of_sequenceAt {α : Type} {isDynamic : Bool}
    {items : Cursor → Except DataFault (α × Cursor)} {c c' : Cursor} {x : α}
    (h : sequenceAt isDynamic items c = .ok (x, c')) : ∃ c₁ c₂, items c₁ = .ok (x, c₂) := by
  unfold sequenceAt at h
  split at h
  · obtain ⟨⟨inner, next⟩, -, h⟩ := bind_eq_ok.mp h
    obtain ⟨⟨y, c₂⟩, hy, h⟩ := bind_eq_ok.mp h
    obtain ⟨rfl, -⟩ := Prod.mk.inj (Except.ok.inj h)
    exact ⟨inner, c₂, hy⟩
  · obtain ⟨inner, -, h⟩ := bind_eq_ok.mp h
    obtain ⟨⟨y, c₂⟩, hy, h⟩ := bind_eq_ok.mp h
    obtain ⟨rfl, -⟩ := Prod.mk.inj (Except.ok.inj h)
    exact ⟨inner, c₂, hy⟩

mutual

/-- **What is decoded is of the type it is decoded at**, whatever the data. -/
theorem holds_of_decode : (k : Kind) → {c c' : Cursor} → {v : Value} →
    k.decode c = .ok (v, c') → k.holds v = true
  | .bytes, _, _, _, h => by
    rw [decode] at h
    obtain ⟨_, -, h⟩ := bind_eq_ok.mp h
    obtain ⟨rfl, -⟩ := Prod.mk.inj (Except.ok.inj h)
    rfl
  | .string, _, _, _, h => by
    rw [decode] at h
    obtain ⟨_, -, h⟩ := bind_eq_ok.mp h
    obtain ⟨rfl, -⟩ := Prod.mk.inj (Except.ok.inj h)
    rfl
  | .array item, _, _, _, h => by
    rw [decode] at h
    obtain ⟨_, -, h⟩ := bind_eq_ok.mp h
    obtain ⟨_, -, h⟩ := bind_eq_ok.mp h
    dsimp only at h
    split at h
    · obtain ⟨rfl, -⟩ := Prod.mk.inj (Except.ok.inj h)
      rfl
    · split at h
      · cases h
      · obtain ⟨_, -, h⟩ := bind_eq_ok.mp h
        obtain ⟨⟨vs, _⟩, hvs, h⟩ := bind_eq_ok.mp h
        obtain ⟨rfl, -⟩ := Prod.mk.inj (Except.ok.inj h)
        rw [holds, List.all_eq_true]
        exact (Cursor.of_many (fun _ _ _ => holds_of_decode item) hvs).2
  | .fixedArray item size, _, _, _, h => by
    rw [decode] at h
    obtain ⟨⟨vs, _⟩, hvs, h⟩ := bind_eq_ok.mp h
    obtain ⟨rfl, -⟩ := Prod.mk.inj (Except.ok.inj h)
    obtain ⟨_, _, hmany⟩ := items_of_sequenceAt hvs
    obtain ⟨hlen, hall⟩ := Cursor.of_many (fun _ _ _ => holds_of_decode item) hmany
    rw [holds, Bool.and_eq_true, List.all_eq_true]
    exact ⟨beq_of_eq hlen, hall⟩
  | .tuple items, _, _, _, h => by
    rw [decode] at h
    obtain ⟨⟨vs, _⟩, hvs, h⟩ := bind_eq_ok.mp h
    obtain ⟨rfl, -⟩ := Prod.mk.inj (Except.ok.inj h)
    obtain ⟨_, _, hfields⟩ := items_of_sequenceAt hvs
    exact holdsAll_of_decodeFields items hfields
  | .bool, _, _, _, h => by
    rw [decode] at h
    exact holds_of_decodeWord rfl h
  | .int bits, _, _, _, h => by
    rw [decode] at h
    exact holds_of_decodeWord rfl h
  | .uint bits, _, _, _, h => by
    rw [decode] at h
    exact holds_of_decodeWord rfl h
  | .fixedBytes size, _, _, _, h => by
    rw [decode] at h
    exact holds_of_decodeWord rfl h
  | .address, _, _, _, h => by
    rw [decode] at h
    exact holds_of_decodeWord rfl h
  | .function, _, _, _, h => by
    rw [decode] at h
    exact holds_of_decodeWord rfl h

/-- Values that are decoded together hold their kinds. -/
theorem holdsAll_of_decodeFields : (ks : List Kind) → {c c' : Cursor} → {vs : List Value} →
    decodeFields ks c = .ok (vs, c') → holdsAll ks vs = true
  | [], _, _, _, h => by
    obtain ⟨rfl, -⟩ := Prod.mk.inj (Except.ok.inj h)
    rfl
  | k :: ks, _, _, _, h => by
    rw [decodeFields] at h
    obtain ⟨⟨v, _⟩, hv, h⟩ := bind_eq_ok.mp h
    obtain ⟨⟨vs, _⟩, hvs, h⟩ := bind_eq_ok.mp h
    obtain ⟨rfl, -⟩ := Prod.mk.inj (Except.ok.inj h)
    rw [holdsAll, Bool.and_eq_true]
    exact ⟨holds_of_decode k hv, holdsAll_of_decodeFields ks hvs⟩

end

/-- **Decoded values are of the types that they are decoded at**, and as many, unless all of these
are void. -/
theorem holdsAll_of_decodeAll {ks : List Kind} {data : Bytes} {vs : List Value}
    (h : decodeAll ks data = .ok vs) (hks : allVoid ks = false ∨ ks = []) :
    holdsAll ks vs = true := by
  rcases hks with hvoid | rfl
  · rw [decodeAll, if_neg (Bool.eq_false_iff.mp hvoid)] at h
    obtain ⟨⟨vs, _⟩, hvs, rfl⟩ := map_eq_ok.mp h
    exact holdsAll_of_decodeFields ks hvs
  · obtain rfl := Except.ok.inj h
    rfl

end Kind

/-! ## Fields and what they are given -/

/-- The field that a parameter of an event is at a position. -/
def Input.field (i : Input) (position : Nat) : Field :=
  { name := if i.param.name.isEmpty then Text.Decimal.ofNat position else i.param.name
    typeName := i.param.canonicalType
    indexed := i.indexed }

/-- The field with its value. -/
def Field.withValue (f : Field) (v : Value) : DecodedField := ⟨f.name, f.typeName, f.indexed, v⟩

/-- The field without its value. -/
def DecodedField.field (f : DecodedField) : Field := ⟨f.name, f.typeName, f.indexed⟩

/-- The parameters of an event with their types. -/
abbrev Typed := List (Input × Kind)

namespace Typed

/-- The types of the indexed parameters. -/
def indexed (ps : Typed) : List Kind := (ps.filter (·.1.indexed)).map (·.2)

/-- The types of the parameters that lie in the data. -/
def inData (ps : Typed) : List Kind := (ps.filter (!·.1.indexed)).map (·.2)

/-- The fields that the parameters are from a position on. -/
def fields : (position : Nat) → Typed → List Field
  | _, [] => []
  | n, (i, _) :: ps => i.field n :: fields (n + 1) ps

variable {i : Input} {k : Kind} {ps : Typed}

theorem indexed_cons_of_indexed (h : i.indexed = true) :
    indexed ((i, k) :: ps) = k :: indexed ps := by
  rw [indexed, List.filter_cons_of_pos (by simpa using h)]
  rfl

theorem indexed_cons_of_inData (h : i.indexed = false) : indexed ((i, k) :: ps) = indexed ps := by
  rw [indexed, List.filter_cons_of_neg (by simp [h])]
  rfl

theorem inData_cons_of_indexed (h : i.indexed = true) : inData ((i, k) :: ps) = inData ps := by
  rw [inData, List.filter_cons_of_neg (by simp [h])]
  rfl

theorem inData_cons_of_inData (h : i.indexed = false) :
    inData ((i, k) :: ps) = k :: inData ps := by
  rw [inData, List.filter_cons_of_pos (by simp [h])]
  rfl

/-- There is a field in the data when there is a parameter there. -/
theorem isSome_find?_fields (ps : Typed) (n : Nat) :
    ((ps.fields n).find? (!·.indexed)).isSome = !ps.inData.isEmpty := by
  induction ps generalizing n with
  | nil => rfl
  | cons p ps ih =>
    obtain ⟨i, k⟩ := p
    cases hi : i.indexed with
    | true =>
      rw [fields, List.find?_cons_of_neg (by simp [Input.field, hi]), inData_cons_of_indexed hi, ih]
    | false =>
      rw [fields, List.find?_cons_of_pos (by simp [Input.field, hi]), inData_cons_of_inData hi]
      rfl

/-- The fields of an event are those of its typed inputs. -/
theorem fieldsOf_eq (ps : Typed) : Signature.fieldsOf (ps.map Prod.fst) = fields 0 ps := by
  have h : ∀ n, ((ps.map Prod.fst).zipIdx n).map (fun p => p.1.field p.2) =
      fields n ps := by
    induction ps with
    | nil => exact fun _ => rfl
    | cons p ps ih =>
      intro n
      rw [List.map_cons, List.zipIdx_cons, List.map_cons, ih]
      rfl
  exact h 0

end Typed

/-- What the parameters of an event, from a position on, decode to. Each has a field of its own name
or position; an indexed one takes the next topic, and any other the next value of the data. -/
inductive Contents :
    (position : Nat) → Typed → (topics : List Word) → List Value → List DecodedField → Prop
  | nil {n : Nat} : Contents n [] [] [] []
  /-- The topic of an elementary type holds the value. -/
  | word {n : Nat} {i : Input} {k : Kind} {t : Word} {v : Value} {ps : Typed} {ts : List Word}
      {vs : List Value} {fs : List DecodedField} (hi : i.indexed = true)
      (ht : k.ofWord? t = some v) (hv : k.holds v = true) (h : Contents (n + 1) ps ts vs fs) :
      Contents n ((i, k) :: ps) (t :: ts) vs ((i.field n).withValue v :: fs)
  /-- The topic of any other type stands for the value. -/
  | digest {n : Nat} {i : Input} {k : Kind} {t : Word} {ps : Typed} {ts : List Word}
      {vs : List Value} {fs : List DecodedField} (hi : i.indexed = true) (hk : k.isWord = false)
      (h : Contents (n + 1) ps ts vs fs) :
      Contents n ((i, k) :: ps) (t :: ts) vs ((i.field n).withValue (.fixedBytes 32 t) :: fs)
  | inData {n : Nat} {i : Input} {k : Kind} {v : Value} {ps : Typed} {ts : List Word}
      {vs : List Value} {fs : List DecodedField} (hi : i.indexed = false)
      (hv : k.holds v = true) (h : Contents (n + 1) ps ts vs fs) :
      Contents n ((i, k) :: ps) ts (v :: vs) ((i.field n).withValue v :: fs)

namespace Contents

variable {n : Nat} {ps : Typed} {ts : List Word} {vs : List Value} {fs : List DecodedField}

/-- The fields are those that the parameters are. -/
theorem fields_eq (h : Contents n ps ts vs fs) : fs.map DecodedField.field = ps.fields n := by
  induction h with
  | nil => rfl
  | word _ _ _ _ ih | digest _ _ _ ih | inData _ _ _ ih =>
    rw [List.map_cons, ih]
    rfl

end Contents

theorem Kind.ofTopic_of_not_isWord {k : Kind} (hk : k.isWord = false) (t : Word) :
    k.ofTopic t = .fixedBytes 32 t := by
  cases k <;> first | rfl | cases hk

namespace Signature

variable {s : Signature} {ps : Typed} {log : Log} {n : Nat} {ts : List Word} {vs : List Value}
  {fs : List DecodedField} {text : String}

/-- The fields are given what the parameters decode to. -/
theorem assign_of_contents (h : Contents n ps ts vs fs) :
    assign text (ps.fields n) (List.zipWith Kind.ofTopic ps.indexed ts) vs = .ok fs := by
  induction h with
  | nil => rfl
  | @word n i k t v ps ts vs fs hi ht _ _ ih =>
    have hvalue : k.ofTopic t = v := by rw [Kind.ofTopic, ht, Option.getD_some]
    rw [Typed.fields, Typed.indexed_cons_of_indexed hi, List.zipWith_cons_cons, hvalue, assign]
    · exact bind_eq_ok.mpr ⟨_, ih, rfl⟩
    · exact hi
  | @digest n i k t ps ts vs fs hi hk _ ih =>
    rw [Typed.fields, Typed.indexed_cons_of_indexed hi, List.zipWith_cons_cons,
      Kind.ofTopic_of_not_isWord hk, assign]
    · exact bind_eq_ok.mpr ⟨_, ih, rfl⟩
    · exact hi
  | @inData n i k v ps ts vs fs hi _ _ ih =>
    rw [Typed.fields, Typed.indexed_cons_of_inData hi, assign]
    · exact bind_eq_ok.mpr ⟨_, ih, rfl⟩
    · exact hi

/-- Every parameter decodes to something when there are a topic for each indexed one and a value of
its type for each of the others. -/
theorem exists_contents (n : Nat) (hts : ts.length = ps.indexed.length)
    (hvs : Kind.holdsAll ps.inData vs = true) : ∃ fs, Contents n ps ts vs fs := by
  induction ps generalizing n ts vs with
  | nil =>
    obtain rfl := List.eq_nil_of_length_eq_zero hts
    obtain rfl := Kind.holdsAll_nil.mp hvs
    exact ⟨[], .nil⟩
  | cons p ps ih =>
    obtain ⟨i, k⟩ := p
    cases hi : i.indexed with
    | true =>
      rw [Typed.indexed_cons_of_indexed hi] at hts
      rw [Typed.inData_cons_of_indexed hi] at hvs
      obtain ⟨t, ts, rfl⟩ := List.exists_cons_of_length_eq_add_one hts
      obtain ⟨fs, hfs⟩ := ih (n + 1) (Nat.succ.inj hts) hvs
      cases hk : k.isWord with
      | true =>
        obtain ⟨v, hv⟩ := Kind.ofWord?_isSome hk t
        exact ⟨_, .word hi hv (Kind.holds_of_ofWord? hv) hfs⟩
      | false => exact ⟨_, .digest hi hk hfs⟩
    | false =>
      rw [Typed.indexed_cons_of_inData hi] at hts
      rw [Typed.inData_cons_of_inData hi] at hvs
      obtain ⟨v, vs, rfl, hv, hvs⟩ := Kind.holdsAll_cons.mp hvs
      obtain ⟨fs, hfs⟩ := ih (n + 1) hts hvs
      exact ⟨_, .inData hi hv hfs⟩

/-- Without any values of the data the first field that lies there is given none. -/
theorem assign_of_no_values {f : Field} (hts : ts.length = ps.indexed.length)
    (hf : (ps.fields n).find? (!·.indexed) = some f) :
    assign text (ps.fields n) (List.zipWith Kind.ofTopic ps.indexed ts) [] =
      .error (.missingValue text f.name) := by
  induction ps generalizing n ts with
  | nil => cases hf
  | cons p ps ih =>
    obtain ⟨i, k⟩ := p
    cases hi : i.indexed with
    | true =>
      rw [Typed.fields, List.find?_cons_of_neg (by simp [Input.field, hi])] at hf
      rw [Typed.indexed_cons_of_indexed hi] at hts ⊢
      obtain ⟨t, ts, rfl⟩ := List.exists_cons_of_length_eq_add_one hts
      rw [Typed.fields, List.zipWith_cons_cons, assign]
      · exact bind_eq_error.mpr (.inl (ih (Nat.succ.inj hts) hf))
      · exact hi
    | false =>
      rw [Typed.fields, List.find?_cons_of_pos (by simp [Input.field, hi])] at hf
      obtain rfl := Option.some.inj hf
      have hflag : (i.field n).indexed = false := hi
      rw [Typed.fields]
      unfold assign
      split
      next heq _ => rw [hflag] at heq; cases heq
      next heq => cases heq
      next => rfl

/-! ## Decoding -/

/-- The parameters of an event denote types. -/
structure Resolves (s : Signature) (ps : Typed) : Prop where
  inputs : ps.map Prod.fst = s.inputs
  kinds : ∀ p ∈ ps, p.1.param.resolve = .ok p.2

/-- Inputs that resolve one by one resolve together. -/
theorem resolveInputs_of_forall (h : ∀ p ∈ ps, p.1.param.resolve = .ok p.2) :
    resolveInputs (ps.map Prod.fst) = .ok ps := by
  induction ps with
  | nil => rfl
  | cons p ps ih =>
    have hrest := ih fun q hq => h q (List.mem_cons_of_mem _ hq)
    exact bind_eq_ok.mpr ⟨_, h p List.mem_cons_self, bind_eq_ok.mpr ⟨_, hrest, rfl⟩⟩

theorem partition_typed (ps : Typed) :
    ps.partition (·.1.indexed) = (ps.filter (·.1.indexed), ps.filter (!·.1.indexed)) := by
  rw [List.partition_eq_filter_filter]
  rfl

/-- The fields of an event are those that its parameters are. -/
theorem Resolves.fields_eq {e : Event} (h : (ofEvent e).Resolves ps) :
    (ofEvent e).fields = ps.fields 0 := by
  rw [← Typed.fieldsOf_eq, h.inputs]
  rfl

theorem resolveInputs_of_resolves (h : s.Resolves ps) : resolveInputs s.inputs = .ok ps := by
  rw [← h.inputs]
  exact resolveInputs_of_forall h.kinds

/-- The kinds of an event are those of its topics and those of its data. -/
theorem kinds_of_resolves (h : s.Resolves ps) (hcount : ps.indexed.length < maxTopics) :
    s.kinds = .ok (ps.indexed, ps.inData) := by
  rw [Typed.indexed, List.length_map] at hcount
  rw [Signature.kinds, resolveInputs_of_resolves h]
  refine bind_eq_ok.mpr ⟨_, rfl, ?_⟩
  rw [partition_typed]
  dsimp only
  rw [if_neg (Nat.not_lt.mpr hcount)]
  rfl

/-- An event with more indexed inputs than topics has no kinds. -/
theorem kinds_of_crowded (h : s.Resolves ps) (hcount : maxTopics ≤ ps.indexed.length) :
    s.kinds = .error (.topicCount s.text maxTopics (ps.indexed.length + 1)) := by
  rw [Typed.indexed, List.length_map] at hcount ⊢
  rw [Signature.kinds, resolveInputs_of_resolves h]
  refine bind_eq_error.mpr (.inr ⟨_, rfl, ?_⟩)
  rw [partition_typed]
  dsimp only
  rw [if_pos (Nat.lt_succ_of_le hcount)]
  rfl

/-- The topics of a log are that of the event and one for each indexed parameter. -/
structure Labels (s : Signature) (ps : Typed) (log : Log) (ts : List Word) : Prop where
  fit : ps.indexed.length < maxTopics
  topics : log.topics = s.topic :: ts
  count : ts.length = ps.indexed.length

/-- What a log of an event is decoded to. -/
structure Yields (s : Signature) (ps : Typed) (log : Log) (ts : List Word)
    (vs : List Value) (d : DecodedLog) : Prop where
  name : d.name = s.name
  text : d.signature = s.text
  /-- The fields are those of the event, each with the name, the type and the flag it has there. -/
  fields : d.fields.map DecodedField.field = s.fields
  labels : s.Labels ps log ts
  values : Kind.decodeAll ps.inData log.data = .ok vs
  contents : Contents 0 ps ts vs d.fields

/-- Why a log is not decoded as one of an event. -/
inductive Refuses (s : Signature) (ps : Typed) (log : Log) : DecodeError → Prop
  | topic (h : log.topic0 ≠ some s.topic) : Refuses s ps log (.topicMismatch s.text)
  | crowded (htopic : log.topic0 = some s.topic) (h : maxTopics ≤ ps.indexed.length) :
      Refuses s ps log (.topicCount s.text maxTopics (ps.indexed.length + 1))
  | count (htopic : log.topic0 = some s.topic) (hfit : ps.indexed.length < maxTopics)
      (h : log.topics.length ≠ ps.indexed.length + 1) :
      Refuses s ps log (.topicCount s.text (ps.indexed.length + 1) log.topics.length)
  | data {topics : List Word} {fault : DataFault} (hlabels : s.Labels ps log topics)
      (h : Kind.decodeAll ps.inData log.data = .error fault) :
      Refuses s ps log (.data s.text fault)
  /-- Of void values alone nothing is read, so the first of them is missing. -/
  | void {topics : List Word} {f : Field} (hlabels : s.Labels ps log topics)
      (hvoid : Kind.allVoid ps.inData = true) (hf : s.fields.find? (!·.indexed) = some f) :
      Refuses s ps log (.missingValue s.text f.name)

theorem Labels.topic0 (h : s.Labels ps log ts) : log.topic0 = some s.topic := by
  rw [Log.topic0, h.topics]
  rfl

/-- As many topics as the event has indexed inputs, and its own, are its topics. -/
theorem exists_labels (htopic : log.topic0 = some s.topic) (hfit : ps.indexed.length < maxTopics)
    (hcount : log.topics.length = ps.indexed.length + 1) : ∃ ts, s.Labels ps log ts := by
  obtain ⟨t, ts, hts⟩ := List.exists_cons_of_length_eq_add_one hcount
  rw [Log.topic0, hts] at htopic
  obtain rfl : t = s.topic := Option.some.inj htopic
  rw [hts] at hcount
  exact ⟨ts, hfit, hts, Nat.succ.inj hcount⟩

/-- Once the topics are in order the data is decoded and the fields are given their values. -/
theorem decode_of_labels (hfields : s.fields = ps.fields 0) (hps : s.Resolves ps)
    (h : s.Labels ps log ts) :
    s.decode log = ((Kind.decodeAll ps.inData log.data).mapError (.data s.text) >>= fun body =>
      assign s.text (ps.fields 0) (List.zipWith Kind.ofTopic ps.indexed ts) body >>= fun fields =>
        .ok ⟨s.name, s.text, fields⟩) := by
  have hcount : log.topics.length = ps.indexed.length + 1 := by
    rw [h.topics, List.length_cons, h.count]
  rw [decode, if_neg (not_not_intro h.topic0), kinds_of_resolves hps h.fit, hfields]
  show (if log.topics.length ≠ ps.indexed.length + 1 then _ else _ : Except _ _) = _
  rw [if_neg (not_not_intro hcount), h.topics]
  rfl

/-- A log that yields an event is decoded to it. -/
theorem decode_of_yields (hfields : s.fields = ps.fields 0) (hps : s.Resolves ps) {d : DecodedLog}
    (h : s.Yields ps log ts vs d) : s.decode log = .ok d := by
  rw [decode_of_labels hfields hps h.labels, h.values]
  refine bind_eq_ok.mpr ⟨_, rfl, bind_eq_ok.mpr ⟨_, assign_of_contents h.contents, ?_⟩⟩
  rw [← h.name, ← h.text]

/-- A log that is refused is not decoded, and the error is the first thing wrong. -/
theorem decode_of_refuses (hfields : s.fields = ps.fields 0) (hps : s.Resolves ps)
    {e : DecodeError} (h : s.Refuses ps log e) : s.decode log = .error e := by
  cases h with
  | topic h =>
    rw [decode, if_pos h]
    rfl
  | crowded htopic h =>
    rw [decode, if_neg (not_not_intro htopic), kinds_of_crowded hps h]
    rfl
  | count htopic hfit h =>
    rw [decode, if_neg (not_not_intro htopic), kinds_of_resolves hps hfit]
    exact if_pos h
  | data hlabels h =>
    rw [decode_of_labels hfields hps hlabels, h]
    rfl
  | void hlabels hvoid hf =>
    rw [hfields] at hf
    have hvalues : Kind.decodeAll ps.inData log.data = .ok [] := if_pos hvoid
    rw [decode_of_labels hfields hps hlabels, hvalues]
    refine bind_eq_error.mpr (.inr ⟨_, rfl, bind_eq_error.mpr (.inl ?_)⟩)
    exact assign_of_no_values hlabels.count hf

/-- With its topics in order a log is decoded, unless its data is not or holds void values
alone. -/
theorem yields_or_refuses_of_labels (hfields : s.fields = ps.fields 0)
    (hlabels : s.Labels ps log ts) :
    (∃ vs d, s.Yields ps log ts vs d) ∨ ∃ e, s.Refuses ps log e := by
  cases hvalues : Kind.decodeAll ps.inData log.data with
  | error fault => exact .inr ⟨_, .data hlabels hvalues⟩
  | ok vs =>
    have hyields (hread : Kind.allVoid ps.inData = false ∨ ps.inData = []) :
        ∃ vs d, s.Yields ps log ts vs d := by
      obtain ⟨fs, hfs⟩ := exists_contents 0 hlabels.count (Kind.holdsAll_of_decodeAll hvalues hread)
      exact ⟨vs, ⟨s.name, s.text, fs⟩, rfl, rfl, hfields ▸ hfs.fields_eq, hlabels, hvalues, hfs⟩
    by_cases hnone : ps.inData = []
    · exact .inl (hyields (.inr hnone))
    · cases hvoid : Kind.allVoid ps.inData with
      | false => exact .inl (hyields (.inl hvoid))
      | true =>
        have hsome : ((ps.fields 0).find? (!·.indexed)).isSome = true := by
          rw [Typed.isSome_find?_fields, Bool.not_eq_true', List.isEmpty_eq_false_iff]
          exact hnone
        obtain ⟨f, hf⟩ := Option.isSome_iff_exists.mp hsome
        exact .inr ⟨_, .void hlabels hvoid (hfields ▸ hf)⟩

/-- Every log yields the event or is refused. -/
theorem yields_or_refuses (hfields : s.fields = ps.fields 0) (log : Log) :
    (∃ ts vs d, s.Yields ps log ts vs d) ∨ ∃ e, s.Refuses ps log e := by
  by_cases htopic : log.topic0 = some s.topic
  · rcases Nat.lt_or_ge ps.indexed.length maxTopics with hfit | hcrowded
    · by_cases hcount : log.topics.length = ps.indexed.length + 1
      · obtain ⟨ts, hlabels⟩ := exists_labels htopic hfit hcount
        exact (yields_or_refuses_of_labels hfields hlabels).imp_left fun h => ⟨ts, h⟩
      · exact .inr ⟨_, .count htopic hfit hcount⟩
    · exact .inr ⟨_, .crowded htopic hcrowded⟩
  · exact .inr ⟨_, .topic htopic⟩

/-- Types without empty tuples are not void. -/
theorem inData_eq_nil (hps : s.Resolves ps) (hplain : ∀ k ∈ ps.inData, k.hasEmptyTuple = false)
    (hvoid : Kind.allVoid ps.inData = true) : ps.inData = [] := by
  cases hdata : ps.inData with
  | nil => rfl
  | cons k ks =>
    have hk : k ∈ ps.inData := hdata ▸ List.mem_cons_self
    obtain ⟨p, hp, rfl⟩ := List.mem_map.mp hk
    have hfull := Param.full_of_resolve _ _ (hps.kinds p (List.mem_filter.mp hp).1) (hplain _ hk)
    rw [hdata, Kind.allVoid, hfull.isVoid_eq] at hvoid
    cases hvoid

/-- **Whatever a log holds, it is decoded to values of the declared types or refused.** A log that
is decoded has the topic of the event and one more for each indexed parameter. It has a field for
each parameter, in the order of the declaration; an indexed one has the value of its own topic or,
if the type is not elementary, that topic. No value is missing, unless all that the data should hold
are void values. -/
theorem decode_typed {i : Interface} {s : Signature} {ps : Typed}
    (hs : s ∈ (Registry.ofInterface i).events) (hps : s.Resolves ps) (log : Log) :
    (∀ d, s.decode log = .ok d ↔ ∃ ts vs, s.Yields ps log ts vs d) ∧
    (∀ e, s.decode log = .error e ↔ s.Refuses ps log e) ∧
    ((∀ k ∈ ps.inData, k.hasEmptyTuple = false) →
      ∀ text name, s.decode log ≠ .error (.missingValue text name)) := by
  have hfields : s.fields = ps.fields 0 := by
    obtain ⟨e, -, rfl⟩ := List.mem_map.mp (Registry.mem_signatures hs)
    exact hps.fields_eq
  have herror (e : DecodeError) : s.decode log = .error e ↔ s.Refuses ps log e := by
    refine ⟨fun h => ?_, decode_of_refuses hfields hps⟩
    obtain ⟨ts, vs, d, hd⟩ | ⟨e', he'⟩ := yields_or_refuses hfields log
    · rw [decode_of_yields hfields hps hd] at h
      cases h
    · obtain rfl := Except.error.inj (h.symm.trans (decode_of_refuses hfields hps he'))
      exact he'
  refine ⟨fun d => ⟨fun h => ?_, fun ⟨ts, vs, hd⟩ => decode_of_yields hfields hps hd⟩, herror, ?_⟩
  · obtain ⟨ts, vs, d', hd'⟩ | ⟨e, he⟩ := yields_or_refuses hfields log
    · obtain rfl := Except.ok.inj (h.symm.trans (decode_of_yields hfields hps hd'))
      exact ⟨ts, vs, hd'⟩
    · rw [decode_of_refuses hfields hps he] at h
      cases h
  · intro hplain text name h
    cases (herror _).mp h with
    | void _ hvoid hf =>
      have hnone := Typed.isSome_find?_fields ps 0
      rw [← hfields, hf, inData_eq_nil hps hplain hvoid] at hnone
      cases hnone

end Signature

/-! ## Logs of fixed events -/

namespace Typed

/-- An event with the parameters of some types. -/
def event (name : String) (ps : Typed) : Event := ⟨name, ps.map Prod.fst, false⟩

/-- A log of that event with further topics and some data. -/
def log (name : String) (ps : Typed) (topics : List Word) (data : Bytes) : Log :=
  { Log.empty with topics := (Signature.ofEvent (ps.event name)).topic :: topics, data }

/-- A pair of numbers, as a parameter is described that has one. -/
def numbers (name : String) : Param :=
  ⟨name, "tuple", [⟨"x", "uint256", []⟩, ⟨"y", "uint256", []⟩]⟩

theorem resolve_numbers (name : String) :
    (numbers name).resolve = .ok (.tuple [.uint 256, .uint 256]) := by
  have hparse : Specifier.parse? "tuple" = some (.root "tuple" []) :=
    Specifier.parse?_of_rootName? rfl rfl rfl
  rw [numbers, Param.resolve, hparse]
  simp only [Param.resolveAll, Param.resolve_uint256]
  rfl

/-- `Noted((uint256 x, uint256 y) indexed pair, uint256)` -/
def noted : Typed :=
  [(⟨numbers "pair", true⟩, .tuple [.uint 256, .uint 256]),
    (⟨⟨"", "uint256", []⟩, false⟩, .uint 256)]

/-- `Paired((uint256 x, uint256 y) indexed pair)` -/
def paired : Typed := [(⟨numbers "pair", true⟩, .tuple [.uint 256, .uint 256])]

/-- `Odd(() a)` -/
def odd : Typed := [(⟨⟨"a", "()", []⟩, false⟩, .tuple [])]

/-- The types of `noted` resolve. -/
theorem resolves_noted : (Signature.ofEvent (noted.event "Noted")).Resolves noted := by
  refine ⟨rfl, fun p hp => ?_⟩
  simp only [noted, List.mem_cons, List.not_mem_nil, or_false] at hp
  obtain rfl | rfl := hp
  · exact resolve_numbers _
  · exact Param.resolve_uint256 _

/-- The types of `paired` resolve. -/
theorem resolves_paired : (Signature.ofEvent (paired.event "Paired")).Resolves paired := by
  refine ⟨rfl, fun p hp => ?_⟩
  obtain rfl := List.mem_singleton.mp hp
  exact resolve_numbers _

/-- The types of `odd` resolve. -/
theorem resolves_odd : (Signature.ofEvent (odd.event "Odd")).Resolves odd := by
  refine ⟨rfl, fun p hp => ?_⟩
  obtain rfl := List.mem_singleton.mp hp
  rfl

end Typed

namespace Signature

open Typed (noted paired odd)

/-- The pair is its topic, and the number without a name is called by its position. -/
theorem decode_typed_noted :
    ofEvent (noted.event "Noted") ∈ (Registry.ofInterface ⟨[], [noted.event "Noted"]⟩).events ∧
    (ofEvent (noted.event "Noted")).Resolves noted ∧
    (ofEvent (noted.event "Noted")).decode (noted.log "Noted" [7] (Bytes.ofNat 32 5 ++ [1])) =
      .ok ⟨"Noted", "Noted((uint256,uint256),uint256)",
        [⟨"pair", "(uint256,uint256)", true, .fixedBytes 32 7⟩,
          ⟨"1", "uint256", false, .uint 256 5⟩]⟩ := by
  have hmem : ofEvent (noted.event "Noted") ∈
      (Registry.ofInterface ⟨[], [noted.event "Noted"]⟩).events := List.mem_singleton_self _
  refine ⟨hmem, Typed.resolves_noted, ?_⟩
  refine ((decode_typed hmem Typed.resolves_noted _).1 _).mpr ⟨[7], [.uint 256 5], rfl, rfl, rfl,
    ⟨by decide, rfl, rfl⟩, ?_, ?_⟩
  · rfl
  · exact .digest rfl rfl (.inData rfl rfl .nil)

/-- A type need not be dynamic for its indexed values to be unseen: of the pair of 1 and 2 there is
only the digest. And a value is missing when the only one that the data should hold has nothing in
it. -/
theorem pair_unseen_and_unit_missing :
    ((Kind.tuple [.uint 256, .uint 256]).isDynamic = false ∧
      (ofEvent (paired.event "Paired")).Resolves paired ∧
      ∃ d f, (ofEvent (paired.event "Paired")).decode (paired.log "Paired"
          [Word.keccak (Value.encodeAll [.uint 256 1, .uint 256 2])] []) = .ok d ∧
        d.fields = [f] ∧ (Kind.tuple [.uint 256, .uint 256]).holds f.value = false) ∧
    (ofEvent (odd.event "Odd")).Resolves odd ∧
      (ofEvent (odd.event "Odd")).decode (odd.log "Odd" [] []) =
        .error (.missingValue "Odd(())" "a") := by
  refine ⟨⟨rfl, Typed.resolves_paired, ?_⟩, Typed.resolves_odd, ?_⟩
  · generalize Word.keccak (Value.encodeAll [.uint 256 1, .uint 256 2]) = t
    have hyields : (ofEvent (paired.event "Paired")).Yields paired (paired.log "Paired" [t] [])
        [t] [] ⟨"Paired", "Paired((uint256,uint256))",
          [⟨"pair", "(uint256,uint256)", true, .fixedBytes 32 t⟩]⟩ :=
      ⟨rfl, rfl, rfl, ⟨by decide, rfl, rfl⟩, rfl, .digest rfl rfl .nil⟩
    exact ⟨_, _, decode_of_yields rfl Typed.resolves_paired hyields, rfl, rfl⟩
  · have hlabels : (ofEvent (odd.event "Odd")).Labels odd (odd.log "Odd" [] []) [] :=
      ⟨by decide, rfl, rfl⟩
    exact decode_of_refuses rfl Typed.resolves_odd (.void hlabels rfl rfl)

end Signature

end EventRelay.Abi
