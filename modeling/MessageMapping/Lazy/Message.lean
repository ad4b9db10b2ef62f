import MessageMapping.Message

/-!
# Messages that are read on demand

The content of a message is read when its document is first asked for. What was found, a document
or a fault, is kept beside the content, and later requests are answered from there. A clone is the
same message, with what has been found so far.
-/

namespace MessageMapping

/-- A message and what reading its content has found, once that is done. -/
structure LazyMessage where
  content : ByteArray
  metadata : Entries String := []
  found : Option (Except Json.Fault Value) := none

namespace LazyMessage

def setMetadata (key value : String) (m : LazyMessage) : LazyMessage :=
  { m with metadata := m.metadata.set key value }

/-- What the content holds; it is read if that has not been done. -/
def load (m : LazyMessage) : Except Json.Fault Value × LazyMessage :=
  match m.found with
  | some found => (found, m)
  | none =>
    let found := (Json.ofBytes m.content.toList).map Value.ofJson
    (found, { m with found := some found })

/-- The message without what has been found, as it is seen from outside. -/
def toMessage (m : LazyMessage) : Message :=
  { content := m.content, metadata := m.metadata }

@[simp] theorem toMessage_load (m : LazyMessage) : m.load.2.toMessage = m.toMessage := by
  unfold load
  split <;> rfl

end LazyMessage

structure LazyBatch where
  messages : List LazyMessage := []

namespace LazyBatch

def get? (b : LazyBatch) (index : Nat) : Option LazyMessage :=
  b.messages[index]?

def push (b : LazyBatch) (m : LazyMessage) : LazyBatch :=
  ⟨b.messages ++ [m]⟩

def message (b : LazyBatch) (index : Nat) : Except EvalError LazyMessage :=
  match b.get? index with
  | some m => .ok m
  | none => .error (.undefinedMessage index)

/-- The whole document of a message, and the batch that knows it from now on. -/
def readDocument (b : LazyBatch) (index : Nat) : Except EvalError Value × LazyBatch :=
  match b.message index with
  | .ok m => (m.load.1.mapError .invalidDocument, ⟨b.messages.set index m.load.2⟩)
  | .error e => (.error e, b)

def metadata (b : LazyBatch) (index : Nat) (key : String) : Except EvalError Value := do
  let entries := (← b.message index).metadata
  if key.isEmpty then .ok (.object (entries.map fun entry => (entry.1, .string entry.2)))
  else
    match entries.get? key with
    | some text => .ok (.string text)
    | none => .error (.undefinedMetadata key)

def toBatch (b : LazyBatch) : Batch :=
  ⟨b.messages.map LazyMessage.toMessage⟩

theorem toBatch_get? (b : LazyBatch) (index : Nat) :
    b.toBatch.get? index = (b.get? index).map LazyMessage.toMessage := by
  simp [toBatch, Batch.get?, get?]

theorem toBatch_message (b : LazyBatch) (index : Nat) :
    b.toBatch.message index = (b.message index).map LazyMessage.toMessage := by
  rw [Batch.message, toBatch_get?, message]
  cases b.get? index <;> rfl

theorem toBatch_metadata (b : LazyBatch) (index : Nat) (key : String) :
    b.toBatch.metadata index key = b.metadata index key := by
  rw [Batch.metadata, toBatch_message, metadata]
  cases b.message index <;> rfl

theorem message_eq_ok {b : LazyBatch} {index : Nat} {m : LazyMessage} :
    b.message index = .ok m ↔ b.get? index = some m := by
  rw [message]
  cases b.get? index <;> simp

@[simp] theorem toBatch_readDocument (b : LazyBatch) (index : Nat) :
    (b.readDocument index).2.toBatch = b.toBatch := by
  rw [readDocument]
  split
  next m hm =>
    have hmap : b.toBatch.get? index = some m.toMessage := by
      rw [toBatch_get?, message_eq_ok.1 hm, Option.map_some]
    obtain ⟨_, hm'⟩ := List.getElem?_eq_some_iff.1 hmap
    rw [toBatch, List.map_set, LazyMessage.toMessage_load, ← hm']
    exact congrArg Batch.mk (List.set_getElem_self _)
  next => rfl

end LazyBatch

end MessageMapping
