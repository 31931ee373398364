import Monkey.Token.Lexer

/-!
# The stream of tokens

A reader of tokens with three ways to ask: for the next token if there is one, for the next token
with `Token.eof` at the end, and for all that is left. They share one position in the text.
-/

namespace Monkey

/-- A text being read, of which `unread` is left. -/
structure TokenStream where
  /-- The part of the text that no token has been read from yet. -/
  unread : List Char

/-- One request to a stream. -/
inductive TokenRequest
  /-- The next token, if there is one. -/
  | next?
  /-- The next token, or the end of the text. -/
  | next
  /-- All tokens that are left, and the end of the text. -/
  | all
  deriving DecidableEq, Repr

/-- What a stream hands out. -/
inductive TokenReply
  /-- A token, or nothing at the end of the text. -/
  | one (token : Option Token)
  /-- Several tokens. -/
  | many (tokens : List Token)
  deriving DecidableEq, Repr

namespace TokenStream

/-- A stream at the start of a source text. -/
def ofSource (source : String) : TokenStream := ⟨source.toList⟩

/-- The tokens that have not been handed out. -/
def pending (s : TokenStream) : List Token := Token.ofChars s.unread

/-- The next token, and the stream behind it. At the end the whole text is read. -/
def next? (s : TokenStream) : Option Token × TokenStream :=
  match Token.next? s.unread with
  | some (t, rest) => (some t, ⟨rest⟩)
  | none => (none, ⟨[]⟩)

/-- The next token, and the stream behind it; at the end, the end of the text for ever. -/
def next (s : TokenStream) : Token × TokenStream :=
  let (t, s) := s.next?
  (t.getD .eof, s)

/-- All tokens that are left, followed by the end of the text; the stream is then exhausted. -/
def all (s : TokenStream) : List Token × TokenStream := (s.pending ++ [.eof], ⟨[]⟩)

/-- Answers one request. -/
def answer (s : TokenStream) : TokenRequest → TokenReply × TokenStream
  | .next? => let (t, s) := s.next?; (.one t, s)
  | .next => let (t, s) := s.next; (.one (some t), s)
  | .all => let (ts, s) := s.all; (.many ts, s)

/-- Answers requests in their order. -/
def answers (s : TokenStream) : List TokenRequest → List TokenReply
  | [] => []
  | r :: rs => let (reply, s) := s.answer r; reply :: s.answers rs

end TokenStream

end Monkey
