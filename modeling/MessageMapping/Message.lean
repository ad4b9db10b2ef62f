import MessageMapping.EvalError
import MessageMapping.Json.Reader

/-!
# Messages and batches

A message is its content, some bytes, and its metadata. The content is read as a JSON document
once; what was read is a function of the content, as the type records. A batch is a list of
messages, which are named by their index.
-/

namespace MessageMapping

/-- A message together with the document that its content holds. -/
structure Message where
  content : ByteArray
  metadata : Entries String := []
  document : Except Json.Fault Value := (Json.ofBytes content.toList).map Value.ofJson
  document_eq : document = (Json.ofBytes content.toList).map Value.ofJson := by rfl

namespace Message

instance : Inhabited Message :=
  ⟨{ content := ByteArray.empty }⟩

/-- The message with one more metadata entry, or another value for one that it has. -/
def setMetadata (key value : String) (m : Message) : Message :=
  { m with metadata := m.metadata.set key value }

/-- The document, or the error that reports that there is none. -/
def readDocument (m : Message) : Except EvalError Value :=
  m.document.mapError .invalidDocument

end Message

/-- A list of messages. -/
structure Batch where
  messages : List Message := []
  deriving Inhabited

namespace Batch

def size (b : Batch) : Nat :=
  b.messages.length

def isEmpty (b : Batch) : Bool :=
  b.messages.isEmpty

def get? (b : Batch) (index : Nat) : Option Message :=
  b.messages[index]?

def push (b : Batch) (m : Message) : Batch :=
  ⟨b.messages ++ [m]⟩

/-- The message at an index. -/
def message (b : Batch) (index : Nat) : Except EvalError Message :=
  match b.get? index with
  | some m => .ok m
  | none => .error (.undefinedMessage index)

/-- The value at a path of the document of a message. -/
def document (b : Batch) (index : Nat) (path : Path) : Except EvalError Value := do
  let root ← (← b.message index).readDocument
  match root.get? path with
  | some v => .ok v
  | none => .error (.undefinedField path.text)

/-- The metadata of a message under a key; the empty key asks for all metadata as an object. -/
def metadata (b : Batch) (index : Nat) (key : String) : Except EvalError Value := do
  let entries := (← b.message index).metadata
  if key.isEmpty then .ok (.object (entries.map fun entry => (entry.1, .string entry.2)))
  else
    match entries.get? key with
    | some text => .ok (.string text)
    | none => .error (.undefinedMetadata key)

end Batch

end MessageMapping
