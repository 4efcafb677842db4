/-!
# Text for a terminal

`Terminal.visible` is what a terminal shows of a text: its characters and blanks, without the other
control characters and without escape sequences. A sequence ends where its kind says, even behind
the end of a line. A blank inside a sequence without a text of its own is shown and interrupts it:
what stands behind the blank is shown as well, and the sequence goes on at the next control
character.
-/

namespace Formula.Terminal

/-- The control characters that are shown. -/
def isBlank (c : Char) : Bool :=
  c = '\t' || c = '\n' || c = '\x0c' || c = '\r'

/-- The characters that are shown outside of sequences. -/
def isPlain (c : Char) : Bool :=
  isBlank c || (' ' ≤ c && c ≠ '\x7f')

/-- Whether a character ends a text inside a sequence: a byte of its UTF-8 form is the string
terminator. -/
def endsString (c : Char) : Bool :=
  (String.utf8EncodeChar c).contains 0x9c

/-- The kind of text that the next character belongs to. -/
inductive State where
  | plain
  /-- The escape character has been read. -/
  | escape
  /-- A sequence that ends with its first character from `0` on. -/
  | intermediate
  /-- A sequence that ends with its first character from `@` on. -/
  | control
  /-- A device control, of which nothing has been read. -/
  | device
  /-- The parameters of a device control. -/
  | deviceParameters
  /-- The characters between the parameters of a device control and its text. -/
  | deviceIntermediate
  /-- A text that goes on until the string terminator. -/
  | string
  /-- A text that goes on until the bell. -/
  | command
deriving DecidableEq, Inhabited

namespace State

/-- The characters that are shown. -/
def shows : State → Char → Bool
  | plain, c => isPlain c
  | escape, c | intermediate, c | control, c => isBlank c
  | _, _ => false

/-- What a sequence is, by the character behind the escape character. -/
def ofIntroducer (c : Char) : State :=
  match c with
  | '[' => control
  | ']' => command
  | 'P' => device
  | 'X' | '^' | '_' => string
  | _ =>
    if ' ' ≤ c ∧ c < '0' then intermediate
    else if '0' ≤ c ∧ c ≤ '~' then plain
    else escape

/-- The part of a device control that a character brings. -/
def ofDeviceCharacter (state : State) (c : Char) : State :=
  if ' ' ≤ c ∧ c < '0' then deviceIntermediate
  else if '0' ≤ c ∧ c < '@' then
    if state = device ∨ state = deviceParameters ∧ c < '<' then deviceParameters else string
  else if '@' ≤ c ∧ c ≤ '~' then string
  else state

/-- The state behind a character that is not shown. -/
def next (state : State) (c : Char) : State :=
  if c = '\x1b' then escape
  else if c = '\x18' ∨ c = '\x1a' then plain
  else
    match state with
    | plain => plain
    | escape => ofIntroducer c
    | intermediate => if '0' ≤ c ∧ c ≤ '~' then plain else intermediate
    | control => if '@' ≤ c ∧ c ≤ '~' then plain else control
    | device | deviceParameters | deviceIntermediate => state.ofDeviceCharacter c
    | string => if endsString c then plain else string
    | command => if c = '\x07' then plain else command

end State

/-- A terminal that is being written to: the text it shows, and how it takes the next character. -/
structure Screen where
  state : State
  /-- Whether the last character was shown. -/
  showing : Bool
  text : String
deriving DecidableEq, Inhabited

namespace Screen

/-- A terminal that has not been written to. -/
def empty : Screen :=
  ⟨.plain, false, ""⟩

/-- Writes a character. -/
def put : Screen → Char → Screen
  | ⟨state, showing, text⟩, c =>
    if (if showing then .plain else state).shows c then
      ⟨if c < '\x80' then state else .plain, true, text.push c⟩
    else ⟨state.next c, false, text⟩

end Screen

/-- What a terminal shows of a text. -/
def visible (text : String) : String :=
  (text.foldl Screen.put .empty).text

end Formula.Terminal
