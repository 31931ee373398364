import Monkey.Proofs.Grammar.Monotone
import Monkey.Proofs.Joining.Words

/-!
# Reading joined programs

A text that is read without errors, ends with a semicolon and leaves no brace open is read to
the same statements when another text follows, and the other text is read as if it stood alone.
-/

namespace Monkey

open Monkey.Parser
open Token (Terminated openBraces)

variable {ts us rest : List Token} {p q : Program} {errors : List ParseError}

theorem Parser.untilEnd_of_clean {α : Type} {item : Parser α} {a : α} {as : List α}
    {mid : List Token} {m : Nat} (hne : Token.ahead ts ≠ .eof) (hfirst : Reads item ts a mid)
    (hothers : untilEnd item m mid = some ⟨errors, .ok as, rest⟩) :
    untilEnd item (m + 1) ts = some ⟨errors, .ok (a :: as), rest⟩ := by
  have hrecover : Reads (recover item) ts (some a) mid := reads_recover.2 ⟨a, rfl, hfirst⟩
  rw [untilEnd, bind_of_clean (reads_peek.2 ⟨rfl, rfl⟩), if_neg hne, bind_of_clean hrecover,
    bind_of_ok hothers]
  show some (Parsed.mk (errors ++ []) (.ok (a :: as)) rest) = _
  rw [List.append_nil]

/-- A statement of a program is derived in the same way when the text goes on: either another
statement follows in the program, or the semicolon at the end is its own. -/
theorem Derives.append_first {s : Stmt} {mid : List Token} (first : Derives .statement ts s mid)
    (others : Derives .program mid p []) (hts : Terminated ts) (hbraces : openBraces ts ≤ 0) :
    Derives .statement (ts ++ us) s (mid ++ us) := by
  cases others with
  | endOfText => exact first.append_statement hts hbraces
  | program second => exact first.append second.ahead_ne_of_statement.2

/-- The induction is on the statements of the program. -/
theorem Derives.untilEnd_append (h : Derives .program ts p []) (hts : Terminated ts)
    (hbraces : openBraces ts ≤ 0) {n m : Nat} (hn : 3 * (ts ++ us).length + 3 ≤ n)
    (hus : untilEnd (statement n) m us = some ⟨errors, .ok q, rest⟩) :
    untilEnd (statement n) (m + p.length) (ts ++ us) = some ⟨errors, .ok (p ++ q), rest⟩ := by
  induction p generalizing ts with
  | nil =>
    cases h with
    | endOfText => exact hus
  | cons s p ih =>
    cases h with
    | @program _ _ mid _ _ first others =>
      have hderives : Derives .statement (ts ++ us) s (mid ++ us) :=
        first.append_first others hts hbraces
      have hreads : Reads (statement n) (ts ++ us) s (mid ++ us) :=
        hderives.reads hn (Nat.lt_succ_self _)
      have hmid : openBraces mid ≤ openBraces ts + 0 := first.openBraces_le
      have hlength : (mid ++ us).length ≤ (ts ++ us).length := by
        rw [List.length_append, List.length_append]
        exact Nat.add_le_add_right first.suffix.length_le _
      have hothers := ih others (hts.suffix first.suffix) (by omega) (by omega)
      exact untilEnd_of_clean hderives.ahead_ne_of_statement.2 hreads hothers

/-- A program that ends with a semicolon and leaves no brace open is read in front of any other
tokens. -/
theorem Derives.parseTokens_append (h : Derives .program ts p []) (hts : Terminated ts)
    (hbraces : openBraces ts ≤ 0) (us : List Token) : parseTokens (ts ++ us) =
      ⟨p ++ (parseTokens us).statements, (parseTokens us).errors⟩ := by
  obtain ⟨errors, q, rest, hq⟩ := exists_program_eq us
  have hus : parseTokens us = ⟨q, errors⟩ := parseTokens_of_program hq
  -- Enough for the joined text, and what the statements of `p` leave of it is enough for `us`.
  let m := parseBudget us.length + (3 * (ts ++ us).length + 3)
  have hm : parseBudget us.length ≤ m := Nat.le_add_right _ _
  have hstatement := statement_within (Nat.le_trans hm (Nat.le_add_right m p.length))
  have hbehind : untilEnd (statement (m + p.length)) m us = some ⟨errors, .ok q, rest⟩ :=
    hstatement.untilEnd hm hq
  have hbudget : 3 * (ts ++ us).length + 3 ≤ m + p.length := by omega
  have hprogram : Parser.program (m + p.length) (ts ++ us) =
      some ⟨errors, .ok (p ++ q), rest⟩ := h.untilEnd_append hts hbraces hbudget hbehind
  rw [hus, parseTokens_of_program hprogram]

/-- What is read without errors is derived by the grammar. -/
theorem derives_of_errors_eq_nil {source : String} (h : (parse source).errors = []) :
    Derives .program (Token.ofSource source) (parse source).statements [] := by
  obtain ⟨errors, p, rest, hp⟩ := exists_program_eq (Token.ofSource source)
  have hparse : parse source = ⟨p, errors⟩ := parseTokens_of_program hp
  rw [hparse] at h ⊢
  obtain rfl : errors = [] := h
  have hderives := derives_program (Sound.of_budget _).statement hp
  rwa [hderives.rest_eq_nil (Token.eof_notMem_ofChars _)] at hderives

/-- Two texts with a line break between them. -/
theorem parse_newline {first second : String} (herrors : (parse first).errors = [])
    (hlast : Terminated (Token.ofSource first))
    (hbraces : (Token.ofSource first).count (.symbol .lbrace) =
      (Token.ofSource first).count (.symbol .rbrace)) :
    parse (first ++ "\n" ++ second) =
      ⟨(parse first).statements ++ (parse second).statements, (parse second).errors⟩ := by
  have hbalanced : openBraces (Token.ofSource first) ≤ 0 := by
    rw [Token.openBraces_eq_count, hbraces]
    omega
  rw [parse, Token.ofSource_newline hlast]
  exact (derives_of_errors_eq_nil herrors).parseTokens_append hlast hbalanced _

end Monkey
