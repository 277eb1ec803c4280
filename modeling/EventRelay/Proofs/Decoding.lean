import EventRelay.Proofs.Characters
import EventRelay.Proofs.Registry
import EventRelay.Proofs.Shapes

/-!
# What is encoded is decoded

The encoding of values of full types, nested as deep as a decoder goes, is read back as the values,
with anything behind it (`Kind.decodeAll_encodeAll`). What a place shows of a value is the
value itself or an offset (`Cursor.Shows`); a type `ReadsBack` when its values are read from
wherever they are shown. A sequence of such types is read part by part: the heads are what is
unread, and the tails lie where the offsets point to.
-/

namespace EventRelay.Abi

/-! ## Heads and tails -/

namespace Part

/-- Heads are as long as their parts say, wherever they point. -/
theorem length_heads (offset : Nat) (ps : List Part) :
    (heads offset ps).length = headLengths ps := by
  induction ps generalizing offset with
  | nil => rfl
  | cons p ps ih =>
    rw [heads, headLengths, headLength]
    split
    · rw [List.length_append, Bytes.length_ofNat, ih]
    · rw [List.length_append, ih]

theorem tails_cons (p : Part) (ps : List Part) :
    tails (p :: ps) = (if p.isDynamic then p.body else []) ++ tails ps :=
  List.flatMap_cons

theorem length_layout (ps : List Part) :
    (layout ps).length = headLengths ps + (tails ps).length := by
  rw [layout, List.length_append, length_heads]

end Part

/-- Values that are not dynamic leave nothing to the tails. -/
theorem Value.tails_parts {vs : List Value} (h : anyDynamic vs = false) :
    Part.tails (parts vs) = [] := by
  induction vs with
  | nil => rfl
  | cons v vs ih =>
    obtain ⟨hv, hvs⟩ := Bool.or_eq_false_iff.mp h
    rw [parts, Part.tails_cons, hv, ih hvs]
    rfl

/-! ## How long an encoding is at least -/

namespace Kind

/-- The items of a tuple take at least the words that their kinds need. -/
theorem leastWordsAll_le {ks : List Kind} {vs : List Value}
    (hk : ∀ k ∈ ks, ∀ v, k.holds v = true → 32 * k.leastWords ≤ v.encode.length)
    (h : holdsAll ks vs = true) :
    32 * leastWordsAll ks ≤ (Part.layout (Value.parts vs)).length := by
  rw [Part.length_layout]
  induction ks generalizing vs with
  | nil => exact Nat.zero_le _
  | cons k ks ih =>
    obtain ⟨v, vs, rfl, hv, hvs⟩ := holdsAll_cons.mp h
    have hfirst := hk k List.mem_cons_self v hv
    have hrest := ih (fun k hmem => hk k (List.mem_cons_of_mem _ hmem)) hvs
    rw [leastWordsAll, Value.parts, Part.headLengths, Part.headLength, Part.tails_cons,
      List.length_append]
    dsimp only
    -- A value lies whole in the head or whole in the tail.
    split
    · omega
    · rw [List.length_nil]
      omega

/-- A list has room for the words that its items take. -/
theorem mul_leastWords_le {item : Kind} {vs : List Value}
    (hitem : ∀ v, item.holds v = true → 32 * item.leastWords ≤ v.encode.length)
    (h : holdsAll (List.replicate vs.length item) vs = true) :
    32 * (vs.length * item.leastWords) ≤ (Part.layout (Value.parts vs)).length := by
  rw [← leastWordsAll_replicate]
  exact leastWordsAll_le (forall_mem_replicate hitem) h

/-- An encoding has room for the words that its type takes. -/
theorem Full.leastWords_le {k : Kind} (hk : k.Full) {v : Value} (h : k.holds v = true) :
    32 * k.leastWords ≤ v.encode.length := by
  induction hk generalizing v with
  | word hw =>
    obtain ⟨w, hv, -⟩ := word_of_holds hw h
    exact Nat.le_of_eq (by rw [(leastWords_of_isWord hw).1, hv, Word.length_toBytes])
  | array =>
    cases v with
    | array vs =>
      rw [Value.encode, List.length_append, Bytes.length_ofNat]
      exact Nat.le_add_right _ _
    | _ => cases h
  | @fixedArray item size _ _ ih =>
    cases v with
    | fixedArray vs =>
      rw [holds, Bool.and_eq_true, ← holdsAll_replicate] at h
      obtain ⟨hlen, hvs⟩ := h
      obtain rfl : vs.length = size := eq_of_beq hlen
      rw [leastWords, Value.encode]
      exact mul_leastWords_le (fun v hv => ih hv) hvs
    | _ => cases h
  | tuple _ _ ih =>
    cases v with
    | tuple vs => exact leastWordsAll_le (fun k hk v => ih k hk) h
    | _ => cases h
  | _ =>
    cases v with
    | bytes | string =>
      first
      | cases h; done
      | rw [Value.encode, Value.encodePacked, List.length_append, Bytes.length_ofNat]
        exact Nat.le_add_right _ _
    | _ => cases h

end Kind

/-! ## Places in the data -/

namespace Cursor

/-- The place after some of what is unread. -/
def moved (c : Cursor) (rest : Bytes) : Cursor := { c with rest := rest }

/-- The data is shorter than offsets reach. -/
structure Short (c : Cursor) : Prop where
  base : c.base.length < UInt64.size
  rest : c.rest.length < UInt64.size

/-- What is unread begins with the head of a part, with `rest` behind it, and its tail lies where
the head points to. -/
def Shows (c : Cursor) (p : Part) (rest : Bytes) : Prop :=
  if p.isDynamic then
    ∃ offset junk, offset ≤ c.base.length ∧ c.rest = Bytes.ofNat 32 offset ++ rest ∧
      c.base.drop offset = p.body ++ junk
  else c.rest = p.body ++ rest

/-- Bytes that stand at the cursor are taken from it. -/
theorem take_append {c : Cursor} {bs rest : Bytes} (h : c.rest = bs ++ rest) :
    c.take bs.length = .ok (bs, c.moved rest) := by
  have hle : bs.length ≤ c.rest.length := by
    rw [h, List.length_append]
    exact Nat.le_add_right _ _
  rw [take, if_pos hle, h, List.take_left, List.drop_left]
  rfl

/-- A word that stands at the cursor is read. -/
theorem word_append {c : Cursor} {w : Word} {rest : Bytes} (h : c.rest = w.toBytes ++ rest) :
    c.word = .ok (w, c.moved rest) := by
  have htake := take_append h
  rw [Word.length_toBytes] at htake
  refine bind_eq_ok.mpr ⟨_, htake, ?_⟩
  exact congrArg (fun w => Except.ok (w, c.moved rest)) (Word.ofBytes_toBytes w)

/-- A size that stands at the cursor is read. -/
theorem size_append {c : Cursor} {n : Nat} {rest : Bytes} (hn : n < UInt64.size)
    (h : c.rest = Bytes.ofNat 32 n ++ rest) : c.size = .ok (n, c.moved rest) := by
  have hsize : UInt64.size ≤ 2 ^ 256 := by decide
  have htoNat : (BitVec.ofNat 256 n).toNat = n := by
    rw [BitVec.toNat_ofNat, Nat.mod_eq_of_lt (Nat.lt_of_lt_of_le hn hsize)]
  have hword : c.word = .ok (BitVec.ofNat 256 n, c.moved rest) := by
    refine word_append ?_
    rw [h, Word.toBytes, htoNat]
  refine bind_eq_ok.mpr ⟨_, hword, ?_⟩
  dsimp only
  rw [htoNat, if_pos hn]
  rfl

theorem enter_of_lt {c : Cursor} (h : c.depth < maxNesting) (data : Bytes) :
    c.enter data = .ok ⟨data, data, c.depth + 1⟩ := if_pos h

/-- What is behind a part is no longer than what was unread. -/
theorem Short.moved {c : Cursor} {p : Part} {rest : Bytes} (h : c.Short) (hshows : c.Shows p rest) :
    (c.moved rest).Short := by
  refine ⟨h.base, Nat.lt_of_le_of_lt ?_ h.rest⟩
  show rest.length ≤ c.rest.length
  rw [Shows] at hshows
  split at hshows
  · obtain ⟨offset, junk, -, hrest, -⟩ := hshows
    rw [hrest, List.length_append]
    exact Nat.le_add_left _ _
  · rw [hshows, List.length_append]
    exact Nat.le_add_left _ _

/-- The first of several parts is shown before the heads of the others. The tails of these begin
after its own. -/
theorem shows_cons {c : Cursor} {p : Part} {ps : List Part} {offset : Nat} {rest junk : Bytes}
    (hle : offset ≤ c.base.length) (hheads : c.rest = Part.heads offset (p :: ps) ++ rest)
    (htails : c.base.drop offset = Part.tails (p :: ps) ++ junk) :
    ∃ offset', c.Shows p (Part.heads offset' ps ++ rest) ∧ offset' ≤ c.base.length ∧
      c.base.drop offset' = Part.tails ps ++ junk := by
  rw [Part.heads] at hheads
  rw [Part.tails_cons] at htails
  cases hdynamic : p.isDynamic with
  | false =>
    have hstatic : ¬ p.isDynamic = true := Bool.eq_false_iff.mp hdynamic
    rw [if_neg hstatic, List.append_assoc] at hheads
    rw [if_neg hstatic, List.nil_append] at htails
    refine ⟨offset, ?_, hle, htails⟩
    rw [Shows, if_neg hstatic]
    exact hheads
  | true =>
    rw [if_pos hdynamic, List.append_assoc] at hheads htails
    refine ⟨offset + p.body.length, ?_, ?_, ?_⟩
    · rw [Shows, if_pos hdynamic]
      exact ⟨offset, _, hle, hheads, htails⟩
    · have hlen := congrArg List.length htails
      rw [List.length_drop, List.length_append] at hlen
      omega
    · rw [← List.drop_drop, htails, List.drop_left]

/-- An offset is followed to what it points to, one level further down. -/
theorem follow_of_shows {c : Cursor} {body rest : Bytes} (h : c.Shows ⟨true, body⟩ rest)
    (hshort : c.Short) (hdepth : c.depth < maxNesting) :
    ∃ junk, (body ++ junk).length < UInt64.size ∧
      c.follow = .ok (⟨body ++ junk, body ++ junk, c.depth + 1⟩, c.moved rest) := by
  obtain ⟨offset, junk, hle, hrest, hbase⟩ := h
  dsimp only at hbase
  refine ⟨junk, ?_, ?_⟩
  · rw [← hbase, List.length_drop]
    exact Nat.lt_of_le_of_lt (Nat.sub_le _ _) hshort.base
  · have hsize := size_append (Nat.lt_of_le_of_lt hle hshort.base) hrest
    refine bind_eq_ok.mpr ⟨_, hsize, bind_eq_ok.mpr ⟨_, enter_of_lt hdepth _, ?_⟩⟩
    rw [hbase]
    exact if_pos hle

/-- The bytes behind an offset. -/
theorem packed_of_shows {c : Cursor} {bs rest : Bytes}
    (h : c.Shows ⟨true, Value.encodePacked bs⟩ rest) (hshort : c.Short)
    (hdepth : c.depth < maxNesting) : c.packed = .ok (bs, c.moved rest) := by
  obtain ⟨junk, hlt, hfollow⟩ := follow_of_shows h hshort hdepth
  have hbody : Value.encodePacked bs ++ junk =
      Bytes.ofNat 32 bs.length ++ (bs ++ (Bytes.zeros ((32 - bs.length % 32) % 32) ++ junk)) := by
    rw [Value.encodePacked, Bytes.padRight32, List.append_assoc, List.append_assoc]
  have hn : bs.length < UInt64.size := by
    rw [hbody, List.length_append, List.length_append] at hlt
    omega
  refine bind_eq_ok.mpr ⟨_, hfollow, bind_eq_ok.mpr ⟨_, size_append hn hbody, ?_⟩⟩
  exact bind_eq_ok.mpr ⟨_, take_append rfl, rfl⟩

end Cursor

/-! ## Sequences -/

namespace Kind

/-- The values of a type are read from where they are shown. -/
def ReadsBack (k : Kind) : Prop :=
  ∀ (v : Value) (c : Cursor) (rest : Bytes), k.holds v = true → c.Short →
    c.Shows ⟨v.isDynamic, v.encode⟩ rest → c.depth + k.levels ≤ maxNesting →
    k.decode c = .ok (v, c.moved rest)

/-- An array is decoded like a tuple of as many items. -/
theorem many_decode (k : Kind) (n : Nat) (c : Cursor) :
    Cursor.many (decode k) n c = decodeFields (List.replicate n k) c := by
  induction n generalizing c with
  | zero => rfl
  | succ n ih =>
    rw [Cursor.many, List.replicate_succ, decodeFields]
    refine congrArg (bind (decode k c)) (funext fun (v, c) => ?_)
    dsimp only
    rw [ih]

/-- Values are read part by part: their heads are what is unread, and their tails begin where the
first offset points to. -/
theorem decodeFields_of_holdsAll {ks : List Kind} (hk : ∀ k ∈ ks, k.ReadsBack) {vs : List Value}
    (h : holdsAll ks vs = true) {c : Cursor} {offset : Nat} {rest junk : Bytes}
    (hshort : c.Short) (hle : offset ≤ c.base.length)
    (hheads : c.rest = Part.heads offset (Value.parts vs) ++ rest)
    (htails : c.base.drop offset = Part.tails (Value.parts vs) ++ junk)
    (hdepth : c.depth + levelsAll ks ≤ maxNesting) :
    decodeFields ks c = .ok (vs, c.moved rest) := by
  induction ks generalizing vs c offset with
  | nil =>
    obtain rfl := holdsAll_nil.mp h
    rw [decodeFields, Cursor.moved]
    exact congrArg (fun rest => Except.ok ([], { c with rest := rest })) hheads
  | cons k ks ih =>
    obtain ⟨v, vs, rfl, hv, hvs⟩ := holdsAll_cons.mp h
    have hfirst : c.depth + k.levels ≤ maxNesting := by
      rw [levelsAll] at hdepth
      omega
    have hlater : c.depth + levelsAll ks ≤ maxNesting := by
      rw [levelsAll] at hdepth
      omega
    obtain ⟨offset', hshows, hle', htails'⟩ := Cursor.shows_cons hle hheads htails
    have hvalue := hk k List.mem_cons_self v c _ hv hshort hshows hfirst
    have hvalues := ih (fun k hmem => hk k (List.mem_cons_of_mem _ hmem)) hvs (hshort.moved hshows)
      hle' rfl htails' hlater
    rw [decodeFields]
    exact bind_eq_ok.mpr ⟨_, hvalue, bind_eq_ok.mpr ⟨_, hvalues, rfl⟩⟩

/-- Values are read from where their encoding begins. -/
theorem decodeFields_layout {ks : List Kind} (hk : ∀ k ∈ ks, k.ReadsBack) {vs : List Value}
    (h : holdsAll ks vs = true) {depth : Nat} {data junk : Bytes}
    (hdata : data = Part.layout (Value.parts vs) ++ junk) (hlt : data.length < UInt64.size)
    (hdepth : depth + levelsAll ks ≤ maxNesting) :
    decodeFields ks ⟨data, data, depth⟩ =
      .ok (vs, ⟨data, Part.tails (Value.parts vs) ++ junk, depth⟩) := by
  rw [Part.layout, List.append_assoc] at hdata
  have hlen := congrArg List.length hdata
  rw [List.length_append, Part.length_heads] at hlen
  have hle : Part.headLengths (Value.parts vs) ≤ data.length := hlen ▸ Nat.le_add_right _ _
  refine decodeFields_of_holdsAll hk h ⟨hlt, hlt⟩ hle hdata (?_ : data.drop _ = _ ++ junk) hdepth
  rw [hdata]
  exact List.drop_left' (Part.length_heads _ _)

/-- A sequence is read from where it is shown. -/
theorem sequenceAt_of_shows {ks : List Kind} (hk : ∀ k ∈ ks, k.ReadsBack) {vs : List Value}
    (h : holdsAll ks vs = true) {c : Cursor} {rest : Bytes} (hshort : c.Short)
    (hshows : c.Shows ⟨Value.anyDynamic vs, Part.layout (Value.parts vs)⟩ rest)
    (hdepth : c.depth + (levelsAll ks + 1) ≤ maxNesting) :
    sequenceAt (Value.anyDynamic vs) (decodeFields ks) c = .ok (vs, c.moved rest) := by
  have hlt : c.depth < maxNesting := by omega
  have hinner : c.depth + 1 + levelsAll ks ≤ maxNesting := by omega
  cases hdynamic : Value.anyDynamic vs with
  | true =>
    rw [hdynamic] at hshows
    obtain ⟨junk, hlen, hfollow⟩ := Cursor.follow_of_shows hshows hshort hlt
    have hvalues := decodeFields_layout hk h rfl hlen hinner
    rw [sequenceAt, if_pos rfl]
    exact bind_eq_ok.mpr ⟨_, hfollow, bind_eq_ok.mpr ⟨_, hvalues, rfl⟩⟩
  | false =>
    rw [hdynamic] at hshows
    have hrest : c.rest = Part.layout (Value.parts vs) ++ rest := hshows
    have hvalues := decodeFields_layout hk h hrest hshort.rest hinner
    rw [Value.tails_parts hdynamic] at hvalues
    rw [sequenceAt, if_neg Bool.false_ne_true]
    exact bind_eq_ok.mpr ⟨_, Cursor.enter_of_lt hlt _, bind_eq_ok.mpr ⟨_, hvalues, rfl⟩⟩

/-! ## Types -/

/-- Kinds that take one word read back. -/
theorem ReadsBack.of_isWord {k : Kind} (hk : k.isWord = true) : k.ReadsBack := by
  intro v c rest h _ hshows _
  obtain ⟨w, hencode, hw⟩ := word_of_holds hk h
  rw [(isDynamic_of_isWord hk h).1, hencode] at hshows
  have hdecode : k.decode c = k.decodeWord c := by
    cases k <;> first | cases hk; done | rw [decode]
  rw [hdecode]
  refine bind_eq_ok.mpr ⟨_, Cursor.word_append hshows, ?_⟩
  dsimp only
  rw [hw]
  rfl

/-- Bytes read back. -/
theorem readsBack_bytes : ReadsBack .bytes := by
  intro v c rest h hshort hshows hdepth
  cases v with
  | bytes bs =>
    rw [decode]
    exact bind_eq_ok.mpr ⟨_, Cursor.packed_of_shows hshows hshort hdepth, rfl⟩
  | _ => cases h

/-- Strings read back. -/
theorem readsBack_string : ReadsBack .string := by
  intro v c rest h hshort hshows hdepth
  cases v with
  | string s =>
    rw [decode]
    refine bind_eq_ok.mpr ⟨_, Cursor.packed_of_shows hshows hshort hdepth, ?_⟩
    dsimp only
    rw [Text.Utf8.decodeLossy_encode]
    rfl
  | _ => cases h

/-- Arrays read back when their items do. -/
theorem ReadsBack.array {item : Kind} (hfull : item.Full) (hk : item.ReadsBack) :
    (Kind.array item).ReadsBack := by
  intro v c rest h hshort hshows hdepth
  cases v with
  | array vs =>
    rw [levels] at hdepth
    rw [holds, ← holdsAll_replicate] at h
    have hroom := mul_leastWords_le (fun v hv => hfull.leastWords_le hv) h
    obtain ⟨junk, hlen, hfollow⟩ := Cursor.follow_of_shows hshows hshort (by omega)
    have hbody : (Value.array vs).encode ++ junk =
        Bytes.ofNat 32 vs.length ++ (Part.layout (Value.parts vs) ++ junk) := by
      rw [Value.encode, List.append_assoc]
    rw [hbody, List.length_append, Bytes.length_ofNat] at hlen
    have hcount : vs.length < UInt64.size := by
      have := Nat.le_mul_of_pos_right vs.length hfull.leastWords_pos
      rw [List.length_append] at hlen
      omega
    rw [decode]
    refine bind_eq_ok.mpr ⟨_, hfollow, bind_eq_ok.mpr ⟨_, Cursor.size_append hcount hbody, ?_⟩⟩
    dsimp only
    split
    next hzero =>
      rw [List.eq_nil_of_length_eq_zero hzero]
      rfl
    next hpos =>
      have henough : ¬ (Part.layout (Value.parts vs) ++ junk).length / 32 <
          vs.length * item.leastWords := by
        rw [List.length_append]
        omega
      have hinner : c.depth + 1 < maxNesting := by omega
      have hdeep : c.depth + 2 + levelsAll (List.replicate vs.length item) ≤ maxNesting := by
        rw [levelsAll_replicate hpos]
        omega
      have hvalues := decodeFields_layout (forall_mem_replicate hk) h rfl
        (Nat.lt_of_le_of_lt (Nat.le_add_left _ _) hlen) hdeep
      refine (if_neg henough).trans ?_
      refine bind_eq_ok.mpr ⟨_, Cursor.enter_of_lt hinner _, ?_⟩
      rw [many_decode]
      exact bind_eq_ok.mpr ⟨_, hvalues, rfl⟩
  | _ => cases h

/-- So do arrays of a fixed size. -/
theorem ReadsBack.fixedArray {item : Kind} {size : Nat} (hfull : (Kind.fixedArray item size).Full)
    (hsize : size ≠ 0) (hk : item.ReadsBack) : (Kind.fixedArray item size).ReadsBack := by
  intro v c rest h hshort hshows hdepth
  have hdynamic := hfull.isDynamic_eq h
  cases v with
  | fixedArray vs =>
    rw [levels] at hdepth
    rw [holds, Bool.and_eq_true, ← holdsAll_replicate] at h
    obtain ⟨hlen, hvs⟩ := h
    obtain rfl : vs.length = size := eq_of_beq hlen
    rw [← levelsAll_replicate hsize] at hdepth
    have hvalues := sequenceAt_of_shows (forall_mem_replicate hk) hvs hshort hshows hdepth
    rw [decode, funext (many_decode item vs.length)]
    rw [Value.isDynamic, isDynamic] at hdynamic
    rw [← hdynamic]
    exact bind_eq_ok.mpr ⟨_, hvalues, rfl⟩
  | _ => cases h

/-- Tuples read back when all their items do. -/
theorem ReadsBack.tuple {items : List Kind} (hfull : (Kind.tuple items).Full)
    (hk : ∀ k ∈ items, k.ReadsBack) : (Kind.tuple items).ReadsBack := by
  intro v c rest h hshort hshows hdepth
  have hdynamic := hfull.isDynamic_eq h
  cases v with
  | tuple vs =>
    have hvalues := sequenceAt_of_shows hk h hshort hshows hdepth
    rw [Value.isDynamic, isDynamic] at hdynamic
    rw [decode, ← hdynamic]
    exact bind_eq_ok.mpr ⟨_, hvalues, rfl⟩
  | _ => cases h

/-- **The values of a full type are read back from wherever they are shown.** -/
theorem Full.readsBack {k : Kind} (hk : k.Full) : k.ReadsBack := by
  induction hk with
  | word hw => exact .of_isWord hw
  | bytes => exact readsBack_bytes
  | string => exact readsBack_string
  | array h ih => exact ih.array h
  | fixedArray h hsize ih => exact ih.fixedArray (.fixedArray h hsize) hsize
  | tuple hne h ih => exact .tuple (.tuple hne h) ih

/-- **Decoding takes back what encoding did**, whatever is behind it. -/
theorem decodeAll_encodeAll {ks : List Kind} (hk : ∀ k ∈ ks, k.Full) {vs : List Value}
    (h : holdsAll ks vs = true) {junk : Bytes}
    (hlen : (Value.encodeAll vs ++ junk).length < UInt64.size)
    (hdepth : levelsAll ks ≤ maxNesting) : decodeAll ks (Value.encodeAll vs ++ junk) = .ok vs := by
  rw [decodeAll]
  cases ks with
  | nil =>
    rw [holdsAll_nil.mp h]
    rfl
  | cons k ks =>
    have hvoid : ¬ allVoid (k :: ks) = true := by
      rw [allVoid, (hk k List.mem_cons_self).isVoid_eq]
      exact Bool.false_ne_true
    have hvalues := decodeFields_layout (fun k hmem => (hk k hmem).readsBack) h rfl hlen
      (Nat.le_trans (Nat.le_of_eq (Nat.zero_add _)) hdepth)
    rw [if_neg hvoid, Cursor.start]
    exact congrArg (Except.map Prod.fst) hvalues

end Kind

end EventRelay.Abi
