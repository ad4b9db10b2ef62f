import MessageMapping.Json.Numeral

/-!
# Reading JSON text

The reader is a machine that takes one byte at a time. Its state says what may come next and holds
what has been read: a `Context` is the containers that are open around the place of a value,
innermost first. A text is refused at the first byte that no JSON text can have there, and as
`ended` if it stops before a value is complete.
-/

namespace MessageMapping

namespace Json

/-- The open containers around the place of a value, with the items and members read so far. -/
inductive Context
  | top
  /-- In an array, after these items, latest first. -/
  | item (items : List Json) (outer : Context)
  /-- In an object, after these members, under this key. -/
  | member (members : Entries Json) (key : String) (outer : Context)

/-- The number of open containers. -/
def Context.depth : Context → Nat
  | .top => 0
  | .item _ outer => outer.depth + 1
  | .member _ _ outer => outer.depth + 1

/-- The most containers that may be open at once. -/
def maxDepth : Nat := 127

/-- What a string is read for. -/
inductive Place
  | value (context : Context)
  | key (members : Entries Json) (outer : Context)

/-- How far a string has been read inside its quotes. -/
inductive StringPhase
  | plain
  /-- After a backslash. -/
  | escape
  /-- Inside a four-digit escape, `digits` latest first; `high` is the first half of a surrogate
  pair. -/
  | unit (high : Option Nat) (digits : List UInt8)
  /-- After the first half of a surrogate pair: a backslash is due. -/
  | pair (high : Nat)
  /-- After that backslash: the letter `u` is due. -/
  | pairMark (high : Nat)

/-- What the reader has read and what it waits for. -/
inductive State
  /-- A value. -/
  | value (context : Context)
  /-- The first item of an array, or its end. -/
  | firstItem (outer : Context)
  /-- The first key of an object, or its end. -/
  | firstKey (outer : Context)
  /-- A key. -/
  | key (members : Entries Json) (outer : Context)
  /-- The colon after a key. -/
  | colon (members : Entries Json) (key : String) (outer : Context)
  /-- A comma, or the end of the array. -/
  | afterItem (items : List Json) (outer : Context)
  /-- A comma, or the end of the object. -/
  | afterMember (members : Entries Json) (outer : Context)
  /-- The byte `due` of a literal word, and the rest of the word. -/
  | word (due : UInt8) (rest : List UInt8) (value : Json) (context : Context)
  /-- More of a number. -/
  | numeral (numeral : Numeral) (context : Context)
  /-- More of a string; its bytes are latest first. -/
  | string (bytes : List UInt8) (phase : StringPhase) (place : Place)
  /-- Nothing but white space. -/
  | done (value : Json)

def isSpace (byte : UInt8) : Bool :=
  byte = 32 || byte = 9 || byte = 10 || byte = 13

/-- Puts a complete value into its place. -/
def Context.fill (value : Json) : Context → State
  | .top => .done value
  | .item items outer => .afterItem (value :: items) outer
  | .member members key outer => .afterMember (members.set key value) outer

/-- Opens a container, if that is not one too many. -/
def Context.enter (context : Context) (state : State) : Except Fault State :=
  if context.depth < maxDepth then .ok state else .error .malformed

/-- The first byte of a value. -/
def Context.start (byte : UInt8) (context : Context) : Except Fault State :=
  if byte = 123 then context.enter (.firstKey context)
  else if byte = 91 then context.enter (.firstItem context)
  else if byte = 34 then .ok (.string [] .plain (.value context))
  else if byte = 110 then .ok (.word 117 [108, 108] .null context)
  else if byte = 116 then .ok (.word 114 [117, 101] (.bool true) context)
  else if byte = 102 then .ok (.word 97 [108, 115, 101] (.bool false) context)
  else match Numeral.start? byte with
    | some numeral => .ok (.numeral numeral context)
    | none => .error .malformed

/-- A byte between values that is no white space. -/
def State.punctuation (byte : UInt8) : State → Except Fault State
  | .value context => context.start byte
  | .firstItem outer =>
    if byte = 93 then .ok (outer.fill (.array [])) else (Context.item [] outer).start byte
  | .firstKey outer =>
    if byte = 125 then .ok (outer.fill (.object []))
    else if byte = 34 then .ok (.string [] .plain (.key [] outer))
    else .error .malformed
  | .key members outer =>
    if byte = 34 then .ok (.string [] .plain (.key members outer)) else .error .malformed
  | .colon members name outer =>
    if byte = 58 then .ok (.value (.member members name outer)) else .error .malformed
  | .afterItem items outer =>
    if byte = 44 then .ok (.value (.item items outer))
    else if byte = 93 then .ok (outer.fill (.array items.reverse))
    else .error .malformed
  | .afterMember members outer =>
    if byte = 44 then .ok (.key members outer)
    else if byte = 125 then .ok (outer.fill (.object members))
    else .error .malformed
  | _ => .error .malformed

/-- A byte outside of words, numbers and strings. -/
def State.between (byte : UInt8) (state : State) : Except Fault State :=
  if isSpace byte then .ok state else state.punctuation byte

/-- The value of a hexadecimal digit. -/
def hexDigit? (byte : UInt8) : Option Nat :=
  if 48 ≤ byte && byte ≤ 57 then some (byte.toNat - 48)
  else if 97 ≤ byte && byte ≤ 102 then some (byte.toNat - 87)
  else if 65 ≤ byte && byte ≤ 70 then some (byte.toNat - 55)
  else none

/-- The number written by hexadecimal digits, latest first. -/
def hexNumber? : List UInt8 → Option Nat
  | [] => some 0
  | byte :: earlier => do return 16 * (← hexNumber? earlier) + (← hexDigit? byte)

/-- The byte that an escape letter stands for. -/
def escaped? (byte : UInt8) : Option UInt8 :=
  if byte = 34 || byte = 92 || byte = 47 then some byte
  else if byte = 98 then some 8
  else if byte = 102 then some 12
  else if byte = 110 then some 10
  else if byte = 114 then some 13
  else if byte = 116 then some 9
  else none

/-- Adds the bytes of a character, latest first. -/
def pushChar (bytes : List UInt8) (code : Nat) : List UInt8 :=
  (String.utf8EncodeChar (Char.ofNat code)).reverse ++ bytes

/-- Four digits of an escape: a character, half of a surrogate pair, or neither. -/
def unitEnd (bytes : List UInt8) (place : Place) (high : Option Nat) (unit : Nat) :
    Except Fault State :=
  let isLow := 0xDC00 ≤ unit && unit < 0xE000
  match high with
  | some high =>
    if isLow then
      let code := 0x10000 + (high - 0xD800) * 0x400 + (unit - 0xDC00)
      .ok (.string (pushChar bytes code) .plain place)
    else .error .malformed
  | none =>
    if isLow then .error .malformed
    else if 0xD800 ≤ unit && unit < 0xDC00 then .ok (.string bytes (.pair unit) place)
    else .ok (.string (pushChar bytes unit) .plain place)

/-- The closing quote: the bytes have to be UTF-8. -/
def closeQuote (bytes : List UInt8) (place : Place) : Except Fault State :=
  match String.fromUTF8? ⟨bytes.reverse.toArray⟩, place with
  | some text, .value context => .ok (context.fill (.string text))
  | some text, .key members outer => .ok (.colon members text outer)
  | none, _ => .error .malformed

/-- A byte inside a string. -/
def StringPhase.step (byte : UInt8) (bytes : List UInt8) (place : Place) :
    StringPhase → Except Fault State
  | .plain =>
    if byte = 34 then closeQuote bytes place
    else if byte = 92 then .ok (.string bytes .escape place)
    else if byte < 32 then .error .malformed
    else .ok (.string (byte :: bytes) .plain place)
  | .escape =>
    if byte = 117 then .ok (.string bytes (.unit none []) place)
    else match escaped? byte with
      | some meant => .ok (.string (meant :: bytes) .plain place)
      | none => .error .malformed
  | .unit high digits =>
    if digits.length < 3 then .ok (.string bytes (.unit high (byte :: digits)) place)
    else match hexNumber? (byte :: digits) with
      | some code => unitEnd bytes place high code
      | none => .error .malformed
  | .pair high =>
    if byte = 92 then .ok (.string bytes (.pairMark high) place) else .error .malformed
  | .pairMark high =>
    if byte = 117 then .ok (.string bytes (.unit (some high) []) place) else .error .malformed

/-- The state after one more byte. A byte that ends a number is read again after the number. -/
def State.step (byte : UInt8) : State → Except Fault State
  | .word due rest read context =>
    if byte ≠ due then .error .malformed
    else match rest with
      | [] => .ok (context.fill read)
      | next :: rest => .ok (.word next rest read context)
  | .numeral n context =>
    match n.phase.step byte with
    | .more phase => .ok (.numeral { n with phase } context)
    | .malformed => .error .malformed
    | .complete => do (context.fill (.number (← n.value))).between byte
  | .string bytes phase place => phase.step byte bytes place
  | state => state.between byte

/-- The value read, if the text may end here. -/
def State.finish : State → Except Fault Json
  | .done read => .ok read
  | .numeral n context => do
    let read ← n.value
    match context with
    | .top => .ok (.number read)
    | _ => .error .ended
  | _ => .error .ended

/-- Reads the bytes of a JSON text. -/
def ofBytes (bytes : List UInt8) : Except Fault Json := do
  (← bytes.foldlM (fun state byte => state.step byte) (State.value .top)).finish

/-- Reads a JSON text. -/
def ofText (text : String) : Except Fault Json :=
  ofBytes text.toUTF8.toList

end Json

end MessageMapping
