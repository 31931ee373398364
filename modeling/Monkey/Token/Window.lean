import Monkey.Token.Stream

/-!
# A window on the text

A reader that sees two characters of a text at a time: the one that is read next and the one behind
it. The window moves on by one character and never goes back. The reader answers the requests that a
stream of tokens answers, but it finds each token, and the end of the text, by what is in the
window.
-/

namespace Monkey

/-- A text seen through a window of two characters. -/
structure TokenWindow where
  /-- The character that is read next, unless the text is at its end. -/
  cur : Option Char
  /-- The character behind it. -/
  peek : Option Char
  /-- What has not come into the window yet. -/
  coming : List Char

namespace TokenWindow

/-- The window moves on by one character. -/
def shift (w : TokenWindow) : TokenWindow := ⟨w.peek, w.coming.head?, w.coming.tail⟩

/-- A window that has moved onto a source text from before its start. -/
def ofSource (source : String) : TokenWindow := (mk none none source.toList).shift.shift

/-- How many characters are in the window or still to come. -/
def size (w : TokenWindow) : Nat := w.cur.toList.length + w.peek.toList.length + w.coming.length

section Progress

variable {w : TokenWindow} {c : Char}

/-- What leaves the window is the character that was read next. -/
theorem size_shift (w : TokenWindow) : w.shift.size + w.cur.toList.length = w.size := by
  have hcoming : w.coming.head?.toList.length + w.coming.tail.length = w.coming.length := by
    cases w.coming with
    | nil => rfl
    | cons c cs => simp [Nat.add_comm]
  simp only [size, shift]
  omega

theorem size_shift_le (w : TokenWindow) : w.shift.size ≤ w.size := by
  rw [← size_shift w]
  exact Nat.le_add_right _ _

theorem size_shift_lt (hc : w.cur = some c) : w.shift.size < w.size := by
  rw [← size_shift w, hc]
  exact Nat.lt_succ_self _

end Progress

/-- Moves on as long as the character that is read next satisfies `p`: the characters that have
left the window, and the window after that. -/
def passWhile (p : Char → Bool) (w : TokenWindow) : List Char × TokenWindow :=
  match _h : w.cur with
  | some c =>
    if p c then
      let (cs, w) := w.shift.passWhile p
      (c :: cs, w)
    else ([], w)
  | none => ([], w)
termination_by w.size
decreasing_by exact size_shift_lt (by assumption)

/-- Reads a string from its opening quote on. One that is not closed runs to the end of the text. -/
def string (w : TokenWindow) : List Char × TokenWindow :=
  let (cs, w) := w.shift.passWhile isStringChar
  (cs, if w.cur = some '"' then w.shift else w)

/-- Reads a symbol: the longer one if the second character in the window is `next`. -/
def either (next : Char) (long short : Symbol) (w : TokenWindow) : Token × TokenWindow :=
  if w.peek = some next then (.symbol long, w.shift.shift) else (.symbol short, w.shift)

/-- Reads the token that starts with `c`, which is read next and is no blank. -/
def scan (c : Char) (w : TokenWindow) : Token × TokenWindow :=
  match c with
  | '=' => w.either '=' .eq .assign
  | '!' => w.either '=' .ne .bang
  | '"' =>
    let (cs, w) := w.string
    (.str (String.ofList cs), w)
  | c =>
    match Symbol.ofChar? c with
    | some s => (.symbol s, w.shift)
    | none =>
      if isLetter c then
        let (cs, w) := w.passWhile isLetter
        (.ofWord (String.ofList cs), w)
      else if c.isDigit then
        let (cs, w) := w.passWhile Char.isDigit
        (.int (String.ofList cs), w)
      else (.illegal c, w.shift)

/-- The next token, if there is one, and the window behind it. -/
def next? (w : TokenWindow) : Option Token × TokenWindow :=
  let w := (w.passWhile isBlank).2
  match w.cur with
  | none => (none, w)
  | some c =>
    let (t, w) := w.scan c
    (some t, w)

section Progress

variable {w w' : TokenWindow} {c : Char} {p : Char → Bool} {t : Token}

/-- To pass over characters leaves no more to read. -/
theorem size_passWhile_le (p : Char → Bool) (w : TokenWindow) :
    (w.passWhile p).2.size ≤ w.size := by
  fun_induction passWhile p w with
  | case1 w c hc hp cs w' heq ih =>
    rw [heq] at ih
    exact Nat.le_trans ih (size_shift_le w)
  | case2 | case3 => exact Nat.le_refl _

/-- To pass over at least one character leaves less to read. -/
theorem size_passWhile_lt (hc : w.cur = some c) (hp : p c = true) :
    (w.passWhile p).2.size < w.size := by
  have hlt : (w.shift.passWhile p).2.size < w.size :=
    Nat.lt_of_le_of_lt (size_passWhile_le p w.shift) (size_shift_lt hc)
  fun_cases passWhile p w with
  | case1 c' hc' hp' cs w' heq =>
    rw [heq] at hlt
    exact hlt
  | case2 c' hc' hp' =>
    obtain rfl : c = c' := Option.some.inj (hc.symm.trans hc')
    exact absurd hp hp'
  | case3 hnone =>
    rw [hc] at hnone
    cases hnone

/-- A string takes its opening quote at least. -/
theorem size_string_lt (hc : w.cur = some c) : w.string.2.size < w.size := by
  have hlt : (w.shift.passWhile isStringChar).2.size < w.size :=
    Nat.lt_of_le_of_lt (size_passWhile_le _ w.shift) (size_shift_lt hc)
  unfold string
  dsimp only
  split
  · exact Nat.lt_of_le_of_lt (size_shift_le _) hlt
  · exact hlt

theorem size_either_lt (next : Char) (long short : Symbol) (hc : w.cur = some c) :
    (w.either next long short).2.size < w.size := by
  unfold either
  split
  · exact Nat.lt_of_le_of_lt (size_shift_le _) (size_shift_lt hc)
  · exact size_shift_lt hc

/-- Every token takes a character. -/
theorem size_scan_lt (hc : w.cur = some c) : (w.scan c).2.size < w.size := by
  unfold scan
  split
  · exact size_either_lt _ _ _ hc
  · exact size_either_lt _ _ _ hc
  · exact size_string_lt hc
  · split
    · exact size_shift_lt hc
    · split
      · exact size_passWhile_lt hc (by assumption)
      · split
        · exact size_passWhile_lt hc (by assumption)
        · exact size_shift_lt hc

/-- Reading a token moves the window on. -/
theorem size_lt_of_next? (h : w.next? = (some t, w')) : w'.size < w.size := by
  have hblanks := size_passWhile_le isBlank w
  rw [next?] at h
  dsimp only at h
  split at h
  · cases h
  · rename_i c hc
    have hscan := size_scan_lt hc
    rw [(Prod.mk.inj h).2] at hscan
    exact Nat.lt_of_lt_of_le hscan hblanks

end Progress

/-- The next token, and the window behind it; at the end, the end of the text for ever. -/
def next (w : TokenWindow) : Token × TokenWindow :=
  let (t, w) := w.next?
  (t.getD .eof, w)

/-- Reads one token after the other until there is none. -/
def drain (w : TokenWindow) : List Token × TokenWindow :=
  match _h : w.next? with
  | (some t, w) =>
    let (ts, w) := w.drain
    (t :: ts, w)
  | (none, w) => ([], w)
termination_by w.size
decreasing_by exact size_lt_of_next? (by assumption)

theorem drain_eq_nil {w w' : TokenWindow} (h : w.next? = (none, w')) : w.drain = ([], w') := by
  rw [drain]; split <;> simp_all

theorem drain_eq_cons {w w' : TokenWindow} {t : Token} (h : w.next? = (some t, w')) :
    w.drain = (t :: w'.drain.1, w'.drain.2) := by
  rw [drain]; split <;> simp_all

/-- All tokens that are left, followed by the end of the text. -/
def all (w : TokenWindow) : List Token × TokenWindow :=
  let (ts, w) := w.drain
  (ts ++ [.eof], w)

/-- Answers one request. -/
def answer (w : TokenWindow) : TokenRequest → TokenReply × TokenWindow
  | .next? => let (t, w) := w.next?; (.one t, w)
  | .next => let (t, w) := w.next; (.one (some t), w)
  | .all => let (ts, w) := w.all; (.many ts, w)

/-- Answers requests in their order. -/
def answers (w : TokenWindow) : List TokenRequest → List TokenReply
  | [] => []
  | r :: rs => let (reply, w) := w.answer r; reply :: w.answers rs

end TokenWindow

end Monkey
