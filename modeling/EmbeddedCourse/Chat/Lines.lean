import EmbeddedCourse.Lib.CString

/-! # The texts of the chats

What both servers print into a message and what both clients make of a typed
line.
-/

namespace EmbeddedCourse.Chat

open CString

/-- `sprintf(str, "%s: %s", name, text)`. -/
def chatLine (name text : Bytes) : Bytes := cstr name ++ ascii [':', ' '] ++ cstr text

/-- `sprintf(…, "%s: %s %s", "server", name, "left the chat")`. -/
def leaveLine (name : Bytes) : Bytes :=
  ascii ['s', 'e', 'r', 'v', 'e', 'r', ':', ' '] ++ cstr name ++
    ascii [' ', 'l', 'e', 'f', 't', ' ', 't', 'h', 'e', ' ', 'c', 'h', 'a', 't']

/-- `input` after `mvwgetnstr(…, 255)` and the cut at the newline. -/
def inputLine (typed : Bytes) : Bytes := (typed.take 255).takeWhile fun b => b ≠ 10 ∧ b ≠ 0

/-- The word that ends the writing loop. -/
def exitWord : Bytes := ascii ['e', 'x', 'i', 't']

end EmbeddedCourse.Chat
