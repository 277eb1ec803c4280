import EventRelay.Log
import EventRelay.Abi.Encode

/-!
# Logs made by hand

A log is put together from an event's signature, topics and values. `Log.named` sets the first
topic, whatever it was; the others follow in the order in which they are added.
-/

namespace EventRelay.Log

/-- The log without any content. -/
def empty : Log := ⟨.zero, [], [], none, none, none⟩

/-- The log with the topic of an event as its first one. -/
def named (l : Log) (signature : String) : Log :=
  { l with topics := Word.keccak (Text.Utf8.encode signature) :: l.topics.tail }

/-- The log with one more topic. -/
def withTopic (l : Log) (topic : Word) : Log := { l with topics := l.topics ++ [topic] }

/-- The log with the encoding of values as its data. -/
def carrying (l : Log) (values : List Abi.Value) : Log :=
  { l with data := Abi.Value.encodeAll values }

/-- The log of an event that an address emits: the topic of its signature, further topics, and
values as data. -/
def ofEvent (address : Address) (signature : String) (topics : List Word)
    (values : List Abi.Value) : Log :=
  ((topics.foldl withTopic ({ empty with address }.named signature)).carrying values)

end EventRelay.Log
