import Monkey.Proofs.Grammar.Exactness
import Monkey.Proofs.Joining.Texts
import Monkey.Token.Window

/-!
# The delivery of tokens

A window on the text delivers what a stream of tokens does: every window that is ever seen is the
one at the start of what has not been read (`TokenWindow.answers_ofChars`). Whatever is asked of it
and in whichever order, it delivers the tokens of the text one after the other, none twice and none
left out, and it stays at the end once it has delivered all of them
(`tokens_delivered_in_order`).
-/

namespace Monkey

namespace Token

/-- A character that is a symbol alone starts no string, no word and no number. -/
theorem scan_symbol {c : Char} {s : Symbol} (hc : Symbol.ofChar? c = some s) (cs : List Char) :
    scan c cs = match Symbol.read? c cs with
      | some (s, rest) => (.symbol s, rest)
      | none => (.illegal c, cs) := by
  have hothers : c ≠ '"' ∧ isLetter c = false ∧ c.isDigit = false := by
    unfold Symbol.ofChar? at hc
    split at hc <;> first | decide | cases hc
  obtain ⟨hquote, hletter, hdigit⟩ := hothers
  rw [scan, if_neg hquote, hletter, hdigit]
  rfl

/-- Blanks before a token do not count. -/
theorem next?_blanks (cs : List Char) :
    next? (cs.dropWhile isBlank) = next? cs := by
  induction cs with
  | nil => rfl
  | cons c cs ih =>
    by_cases hc : isBlank c = true
    · rw [List.dropWhile_cons_of_pos hc, ih, next?, if_pos hc]
    · rw [List.dropWhile_cons_of_neg hc]

end Token

/-! ## Windows -/

namespace TokenWindow

/-- The window at the start of a text. -/
def ofChars (cs : List Char) : TokenWindow := ⟨cs.head?, cs.tail.head?, cs.tail.tail⟩

theorem ofSource_eq (source : String) : ofSource source = ofChars source.toList := rfl

theorem shift_ofChars (cs : List Char) : (ofChars cs).shift = ofChars cs.tail := rfl

theorem cur_ofChars (cs : List Char) : (ofChars cs).cur = cs.head? := rfl

/-- A window passes over a run of characters. -/
theorem passWhile_ofChars (p : Char → Bool) (cs : List Char) :
    (ofChars cs).passWhile p = (cs.takeWhile p, ofChars (cs.dropWhile p)) := by
  induction cs with
  | nil =>
    rw [passWhile]
    rfl
  | cons c cs ih =>
    rw [passWhile]
    dsimp only [cur_ofChars, List.head?_cons]
    by_cases hc : p c = true
    · rw [if_pos hc, shift_ofChars, List.tail_cons, ih, List.takeWhile_cons_of_pos hc,
        List.dropWhile_cons_of_pos hc]
    · rw [if_neg hc, List.takeWhile_cons_of_neg hc, List.dropWhile_cons_of_neg hc]

/-- A window passes over a string with its quotes. -/
theorem string_ofChars (c : Char) (cs : List Char) : (ofChars (c :: cs)).string =
    (cs.takeWhile isStringChar, ofChars (cs.dropWhile isStringChar).tail) := by
  rw [string, shift_ofChars, List.tail_cons, passWhile_ofChars]
  dsimp only [cur_ofChars]
  cases hrest : cs.dropWhile isStringChar with
  | nil => rfl
  | cons d ds =>
    -- a run of other characters is ended by a quote only
    have hd : isStringChar d = false := by
      have hhead := List.head?_dropWhile_not isStringChar cs
      rw [hrest] at hhead
      simpa using hhead
    obtain rfl : d = '"' := by simpa [isStringChar] using hd
    rfl

/-- Two symbols begin with one character: the longer one is read where `=` comes next. -/
theorem either_ofChars {c : Char} {long short : Symbol} (hshort : Symbol.ofChar? c = some short)
    (hlong : ∀ rest, Symbol.read? c ('=' :: rest) = some (long, rest)) (cs : List Char) :
    (ofChars (c :: cs)).either '=' long short =
      ((Token.scan c cs).1, ofChars (Token.scan c cs).2) := by
  rw [Token.scan_symbol hshort]
  show (if cs.head? = some '=' then _ else _) = _
  by_cases hnext : cs.head? = some '='
  · obtain ⟨rest, rfl⟩ := List.head?_eq_some_iff.1 hnext
    rw [if_pos hnext, hlong]
    rfl
  · rw [if_neg hnext, Token.read?_of_head?_ne hnext, hshort]
    rfl

/-- A window finds the token that stands at its place. -/
theorem scan_ofChars (c : Char) (cs : List Char) :
    (ofChars (c :: cs)).scan c = ((Token.scan c cs).1, ofChars (Token.scan c cs).2) := by
  unfold scan
  split
  · exact either_ofChars rfl (fun _ => rfl) cs
  · exact either_ofChars rfl (fun _ => rfl) cs
  · rw [string_ofChars]
    rfl
  · rename_i noAssign noBang noQuote
    have hread : Symbol.read? c cs = (Symbol.ofChar? c).map (·, cs) := by
      unfold Symbol.read?
      split
      · exact absurd rfl noAssign
      · exact absurd rfl noBang
      · rfl
    cases hsymbol : Symbol.ofChar? c with
    | some s =>
      rw [Token.scan_symbol hsymbol, hread, hsymbol]
      rfl
    | none =>
      rw [Token.scan, if_neg noQuote, hread, hsymbol]
      by_cases hletter : isLetter c = true
      · rw [if_pos hletter, if_pos hletter, passWhile_ofChars,
          List.takeWhile_cons_of_pos hletter, List.dropWhile_cons_of_pos hletter]
      · rw [if_neg hletter, if_neg hletter]
        by_cases hdigit : c.isDigit = true
        · rw [if_pos hdigit, if_pos hdigit, passWhile_ofChars,
            List.takeWhile_cons_of_pos hdigit, List.dropWhile_cons_of_pos hdigit]
        · rw [if_neg hdigit, if_neg hdigit]
          rfl

/-- The next token of a window, and the window behind it. -/
theorem next?_ofChars (cs : List Char) : (ofChars cs).next? =
    ((TokenStream.mk cs).next?.1, ofChars (TokenStream.mk cs).next?.2.unread) := by
  rw [next?, passWhile_ofChars, TokenStream.next?, ← Token.next?_blanks]
  dsimp only [cur_ofChars]
  cases hrest : cs.dropWhile isBlank with
  | nil => rfl
  | cons c rest =>
    have hc : isBlank c = false := by
      have hhead := List.head?_dropWhile_not isBlank cs
      rw [hrest] at hhead
      simpa using hhead
    rw [Token.next?_cons hc]
    dsimp only [List.head?_cons]
    rw [scan_ofChars]

/-- What is left of the text is read to its end, one token after the other. -/
theorem drain_ofChars (cs : List Char) : (ofChars cs).drain = (Token.ofChars cs, ofChars []) := by
  induction cs using Token.ofChars.induct with
  | case1 cs h =>
    have hnext : (ofChars cs).next? = (none, ofChars []) := by
      rw [next?_ofChars, TokenStream.next?, h]
    rw [drain_eq_nil hnext, Token.ofChars_eq_nil h]
  | case2 cs t rest h ih =>
    have hnext : (ofChars cs).next? = (some t, ofChars rest) := by
      rw [next?_ofChars, TokenStream.next?, h]
    rw [drain_eq_cons hnext, ih, Token.ofChars_eq_cons h]

/-- A window answers as the stream does, and then it is the window at the start of what the stream
has left. -/
theorem answer_ofChars (s : TokenStream) (r : TokenRequest) :
    (ofChars s.unread).answer r = ((s.answer r).1, ofChars (s.answer r).2.unread) := by
  cases r with
  | next? => rw [answer, next?_ofChars]; rfl
  | next => rw [answer, next, next?_ofChars]; rfl
  | all => rw [answer, all, drain_ofChars]; rfl

/-- A window answers all requests as a stream does. -/
theorem answers_ofChars (s : TokenStream) (rs : List TokenRequest) :
    (ofChars s.unread).answers rs = s.answers rs := by
  induction rs generalizing s with
  | nil => rfl
  | cons r rs ih =>
    rw [answers, answer_ofChars]
    exact congrArg ((s.answer r).1 :: ·) (ih (s.answer r).2)

end TokenWindow

/-! ## Replies -/

namespace TokenReply

/-- The tokens in a reply; the end of the text is none. -/
def tokens : TokenReply → List Token
  | one t => t.toList.filter (· ≠ .eof)
  | many ts => ts.filter (· ≠ .eof)

/-- The tokens that replies have delivered, in their order. -/
def delivered (replies : List TokenReply) : List Token := replies.flatMap tokens

/-- What is delivered first comes first. -/
theorem delivered_append (replies replies' : List TokenReply) :
    delivered (replies ++ replies') = delivered replies ++ delivered replies' :=
  List.flatMap_append

end TokenReply

open TokenReply

/-- The reply that is due when `k` of the tokens `ts` have been delivered. -/
def TokenRequest.due (ts : List Token) (k : Nat) : TokenRequest → TokenReply
  | next? => .one ts[k]?
  | next => .one (some (ts[k]?.getD .eof))
  | all => .many (ts.drop k ++ [.eof])

namespace TokenRequest

variable {ts d : List Token} {r : TokenRequest}

theorem due_drop (ts : List Token) (k : Nat) (r : TokenRequest) :
    r.due (ts.drop k) 0 = r.due ts k := by
  cases r with
  | next? | next => simp [due]
  | all => rfl

theorem getElem?_length_eq_none_iff (hd : d <+: ts) : ts[d.length]? = none ↔ d = ts := by
  rw [List.getElem?_eq_none_iff]
  constructor
  · exact hd.eq_of_length_le
  · rintro rfl
    exact Nat.le_refl _

/-- Nothing is due only when everything has been delivered and no end of the text is asked for. -/
theorem due_eq_none_iff (hd : d <+: ts) :
    r.due ts d.length = .one none ↔ r = .next? ∧ d = ts := by
  rw [← getElem?_length_eq_none_iff hd]
  cases r <;> simp [due]

/-- The end of the text is due when everything has been delivered. -/
theorem due_eq_eof_iff (heof : .eof ∉ ts) (hd : d <+: ts) :
    r.due ts d.length = .one (some .eof) ↔ r = .next ∧ d = ts := by
  have hne : ts[d.length]? ≠ some .eof := fun h => heof (List.mem_of_getElem? h)
  rw [← getElem?_length_eq_none_iff hd]
  cases r with
  | next? => simp [due, hne]
  | next =>
    cases hnext : ts[d.length]? with
    | none => simp [due, hnext]
    | some t =>
      rw [hnext] at hne
      simpa [due, hnext] using hne
  | all => simp [due]

end TokenRequest

/-- The replies deliver the tokens `ts`. -/
structure Delivers (ts : List Token) (requests : List TokenRequest)
    (replies : List TokenReply) : Prop where
  /-- No token is skipped and none comes twice. -/
  inOrder : ∀ i, delivered (replies.take i) <+: ts
  /-- Each reply is the one that is due after what has been delivered before. -/
  due : ∀ i, replies[i]? = requests[i]?.map fun r : TokenRequest =>
    r.due ts (delivered (replies.take i)).length
  /-- There is no next token when all have been delivered, and only then. -/
  none_iff : ∀ i, replies[i]? = some (.one none) ↔
    requests[i]? = some .next? ∧ delivered (replies.take i) = ts
  /-- The end of the text comes when all tokens have been delivered, and only then. -/
  eof_iff : ∀ i, replies[i]? = some (.one (some .eof)) ↔
    requests[i]? = some .next ∧ delivered (replies.take i) = ts
  /-- A request for all tokens brings those that have not been delivered and one end of the text. -/
  all : ∀ i, requests[i]? = some .all → ∃ us, replies[i]? = some (.many (us ++ [.eof])) ∧
    .eof ∉ us ∧ delivered (replies.take i) ++ us = ts ∧ delivered (replies.take (i + 1)) = ts
  /-- When all tokens have been delivered, nothing but the end of the text comes any more. -/
  exhausted : ∀ i, delivered (replies.take i) = ts → ∀ j ≥ i,
    delivered (replies.take j) = ts ∧
      replies[j]? = requests[j]?.map fun r : TokenRequest => r.due [] 0

/-! ## Streams -/

namespace TokenStream

/-- The stream behind what has been requested. -/
def after (s : TokenStream) (rs : List TokenRequest) : TokenStream :=
  rs.foldl (fun s r => (s.answer r).2) s

variable {s : TokenStream} {rs : List TokenRequest}

/-- The next token is the first one pending. -/
theorem next?_eq (s : TokenStream) :
    s.next?.1 = s.pending.head? ∧ s.next?.2.pending = s.pending.tail := by
  rw [next?, pending, pending]
  cases h : Token.next? s.unread with
  | none =>
    rw [Token.ofChars_eq_nil h]
    exact ⟨rfl, Token.ofChars_eq_nil rfl⟩
  | some p =>
    rw [Token.ofChars_eq_cons h]
    exact ⟨rfl, rfl⟩

/-- The reply to a request is the one that is due at the start of the pending tokens. -/
theorem answer_eq_due (s : TokenStream) (r : TokenRequest) :
    (s.answer r).1 = r.due s.pending 0 := by
  obtain ⟨hnext, -⟩ := next?_eq s
  rw [List.head?_eq_getElem?] at hnext
  cases r with
  | next? => exact congrArg TokenReply.one hnext
  | next => exact congrArg (TokenReply.one <| some <| ·.getD .eof) hnext
  | all => rfl

/-- What a reply delivers is what it takes from the pending tokens. -/
theorem tokens_append_pending (heof : .eof ∉ s.pending) (r : TokenRequest) :
    (s.answer r).1.tokens ++ (s.answer r).2.pending = s.pending := by
  have hfilter : ∀ ts : List Token, ts ⊆ s.pending → ts.filter (· ≠ .eof) = ts := by
    intro ts hts
    refine List.filter_eq_self.2 fun t ht => ?_
    have hne : t ≠ .eof := fun h => heof (h ▸ hts ht)
    simpa using hne
  have hpending : (s.next?).2.pending = s.pending.tail := (next?_eq s).2
  -- over the kinds of requests, for any list of pending tokens
  rw [answer_eq_due]
  generalize hts : s.pending = ts at hfilter hpending ⊢
  cases r with
  | next? =>
    show _ ++ s.next?.2.pending = ts
    rw [hpending]
    cases ts with
    | nil => rfl
    | cons t ts => exact congrArg (· ++ ts) (hfilter [t] (by simp))
  | next =>
    show _ ++ s.next?.2.pending = ts
    rw [hpending]
    cases ts with
    | nil => rfl
    | cons t ts => exact congrArg (· ++ ts) (hfilter [t] (by simp))
  | all =>
    have hend : pending ⟨[]⟩ = [] := Token.ofChars_eq_nil rfl
    show (ts ++ [Token.eof]).filter (· ≠ Token.eof) ++ pending ⟨[]⟩ = ts
    rw [List.filter_append, hfilter ts (List.Subset.refl _), hend]
    simp

/-- Nothing is lost between what has been delivered and what is pending. -/
theorem delivered_append_pending (heof : .eof ∉ s.pending) (rs : List TokenRequest) :
    delivered (s.answers rs) ++ (s.after rs).pending = s.pending := by
  induction rs generalizing s with
  | nil => rfl
  | cons r rs ih =>
    have hstep := tokens_append_pending heof r
    have hrest : .eof ∉ (s.answer r).2.pending := fun h =>
      heof (hstep ▸ List.mem_append_right _ h)
    show (s.answer r).1.tokens ++ delivered ((s.answer r).2.answers rs) ++ _ = _
    rw [List.append_assoc]
    exact (congrArg _ (ih hrest)).trans hstep

/-- The answers to the first requests do not depend on later ones. -/
theorem take_answers (s : TokenStream) (rs : List TokenRequest) (i : Nat) :
    (s.answers rs).take i = s.answers (rs.take i) := by
  induction rs generalizing s i with
  | nil => simp [answers]
  | cons r rs ih =>
    cases i with
    | zero => rfl
    | succ i => exact congrArg ((s.answer r).1 :: ·) (ih (s.answer r).2 i)

/-- Each answer is that of the stream that the requests before it have left. -/
theorem getElem?_answers (s : TokenStream) (rs : List TokenRequest) (i : Nat) :
    (s.answers rs)[i]? = rs[i]?.map fun r => ((s.after (rs.take i)).answer r).1 := by
  induction rs generalizing s i with
  | nil => simp [answers]
  | cons r rs ih =>
    cases i with
    | zero => rfl
    | succ i => exact ih (s.answer r).2 i

/-- Before request number `i` nothing is lost either. -/
theorem delivered_take_append_pending (heof : .eof ∉ s.pending) (rs : List TokenRequest) (i : Nat) :
    delivered ((s.answers rs).take i) ++ (s.after (rs.take i)).pending = s.pending := by
  rw [take_answers]
  exact delivered_append_pending heof _

theorem delivered_take_isPrefix (heof : .eof ∉ s.pending) (rs : List TokenRequest) (i : Nat) :
    delivered ((s.answers rs).take i) <+: s.pending :=
  ⟨_, delivered_take_append_pending heof rs i⟩

/-- Each answer is what is due after what has been delivered. -/
theorem getElem?_answers_eq_due (heof : .eof ∉ s.pending) (rs : List TokenRequest) (i : Nat) :
    (s.answers rs)[i]? = rs[i]?.map fun r =>
      r.due s.pending (delivered ((s.answers rs).take i)).length := by
  have hrest : s.pending.drop (delivered ((s.answers rs).take i)).length =
      (s.after (rs.take i)).pending :=
    (congrArg (List.drop _) (delivered_take_append_pending heof rs i)).symm.trans List.drop_left
  rw [getElem?_answers]
  refine congrArg (rs[i]?.map ·) (funext fun r => ?_)
  rw [answer_eq_due, ← hrest, TokenRequest.due_drop]

/-- What has all been delivered stays so. -/
theorem delivered_take_eq_of_le (heof : .eof ∉ s.pending) {i j : Nat} (hij : i ≤ j)
    (hi : delivered ((s.answers rs).take i) = s.pending) :
    delivered ((s.answers rs).take j) = s.pending := by
  obtain ⟨more, hmore⟩ := List.take_prefix_take_left (l := s.answers rs) hij
  have hmono : s.pending <+: delivered ((s.answers rs).take j) := by
    rw [← hmore, delivered_append, hi]
    exact List.prefix_append _ _
  exact (delivered_take_isPrefix heof rs j).eq_of_length_le hmono.length_le

/-- A request for all tokens leaves none. -/
theorem pending_after_all {i : Nat} (hi : rs[i]? = some .all) :
    (s.after (rs.take (i + 1))).pending = [] := by
  rw [List.take_add_one, hi, after, List.foldl_append]
  exact Token.ofChars_eq_nil rfl

/-- A stream delivers its pending tokens, whatever is requested. -/
theorem delivers (heof : .eof ∉ s.pending) (rs : List TokenRequest) :
    Delivers s.pending rs (s.answers rs) where
  inOrder := delivered_take_isPrefix heof rs
  due := getElem?_answers_eq_due heof rs
  none_iff i := by
    have hprefix := delivered_take_isPrefix heof rs i
    rw [getElem?_answers_eq_due heof, Option.map_eq_some_iff]
    simp only [TokenRequest.due_eq_none_iff hprefix]
    constructor
    · rintro ⟨r, hr, rfl, hall⟩
      exact ⟨hr, hall⟩
    · rintro ⟨hr, hall⟩
      exact ⟨_, hr, rfl, hall⟩
  eof_iff i := by
    have hprefix := delivered_take_isPrefix heof rs i
    rw [getElem?_answers_eq_due heof, Option.map_eq_some_iff]
    simp only [TokenRequest.due_eq_eof_iff heof hprefix]
    constructor
    · rintro ⟨r, hr, rfl, hall⟩
      exact ⟨hr, hall⟩
    · rintro ⟨hr, hall⟩
      exact ⟨_, hr, rfl, hall⟩
  all i hi := by
    have hbefore := delivered_take_append_pending heof rs i
    have hafter := delivered_take_append_pending heof rs (i + 1)
    rw [pending_after_all hi, List.append_nil] at hafter
    refine ⟨(s.after (rs.take i)).pending, ?_, fun h => heof ?_, hbefore, hafter⟩
    · rw [getElem?_answers, hi]
      rfl
    · rw [← hbefore]
      exact List.mem_append_right _ h
  exhausted i hi j hj := by
    have hall := delivered_take_eq_of_le heof hj hi
    refine ⟨hall, ?_⟩
    rw [getElem?_answers_eq_due heof, hall]
    refine congrArg (rs[j]?.map ·) (funext fun r => ?_)
    rw [← TokenRequest.due_drop, List.drop_length]

end TokenStream

/-- Whatever is requested of a window on a source text and in whichever order, the replies deliver
the tokens of the text, as those of a stream do. -/
theorem tokens_delivered_in_order (source : String) (requests : List TokenRequest) :
    Delivers (Token.ofSource source) requests ((TokenWindow.ofSource source).answers requests) ∧
      (TokenWindow.ofSource source).answers requests =
        (TokenStream.ofSource source).answers requests := by
  have hsame : (TokenWindow.ofSource source).answers requests =
      (TokenStream.ofSource source).answers requests := by
    rw [TokenWindow.ofSource_eq]
    exact TokenWindow.answers_ofChars (.ofSource source) requests
  rw [hsame]
  exact ⟨TokenStream.delivers (s := .ofSource source) (Token.eof_notMem_ofChars _) requests, rfl⟩

end Monkey
