import ChainScript.Proofs.Progress
import Mathlib.Logic.Relation

/-
Line feeds inside parentheses and brackets.

Which delimiters are open at a place is read off the tokens before it.  Where
the innermost of them is a parenthesis or a bracket, a line feed says nothing;
all other tokens are significant.  Two cursors are in step if the significant
tokens in front of them are the same, and so are the places of the tokens that
they have consumed last.
-/

namespace ChainScript

/-- Line feeds say nothing directly inside the delimiter. -/
def Mark.isBracket : Mark → Bool
  | .openParen | .openBracket => true
  | _ => false

/-- The open delimiters after a token, innermost first. -/
def openAfter (opened : List Mark) : TokenKind → List Mark
  | .mark .openParen => .openParen :: opened
  | .mark .openBracket => .openBracket :: opened
  | .mark .openBrace => .openBrace :: opened
  | .mark .closeParen | .mark .closeBracket | .mark .closeBrace => opened.tail
  | _ => opened

/-- The token opens and closes nothing. -/
def TokenKind.isPlain : TokenKind → Bool
  | .mark .openParen | .mark .openBracket | .mark .openBrace => false
  | .mark .closeParen | .mark .closeBracket | .mark .closeBrace => false
  | _ => true

theorem openAfter_plain {opened : List Mark} {kind : TokenKind}
    (hplain : kind.isPlain = true) : openAfter opened kind = opened := by
  cases kind with
  | mark symbol => cases symbol <;> first | rfl | cases hplain
  | _ => rfl

/-- The delimiters that tokens leave open, innermost first. -/
def openedBy (tokens : List Token) : List Mark :=
  tokens.foldl (fun opened token => openAfter opened token.kind) []

/-- The innermost open delimiter is a parenthesis or a bracket. -/
def bracketed (opened : List Mark) : Bool :=
  opened.head?.any Mark.isBracket

/-- A line feed more or less inside parentheses or brackets. -/
inductive Respaced : List Token → List Token → Prop
  | insert (before after : List Token) {line : Token}
      (hline : line.kind = .newline)
      (hbracketed : bracketed (openedBy before) = true) :
      Respaced (before ++ after) (before ++ line :: after)
  | delete (before after : List Token) {line : Token}
      (hline : line.kind = .newline)
      (hbracketed : bracketed (openedBy before) = true) :
      Respaced (before ++ line :: after) (before ++ after)

/-- The tokens without the line feeds that say nothing. -/
def significant (opened : List Mark) : List Token → List Token
  | [] => []
  | token :: rest =>
      if bracketed opened && token.isNewline then significant opened rest
      else token :: significant (openAfter opened token.kind) rest

section Significant

variable {opened : List Mark}

theorem openAfter_newline {token : Token} (hline : token.isNewline = true) :
    openAfter opened token.kind = opened := by
  rw [isNewline_iff.mp hline]
  rfl

theorem significant_cons_of_counts {token : Token} (rest : List Token)
    (hcounts : (bracketed opened && token.isNewline) = false) :
    significant opened (token :: rest) =
      token :: significant (openAfter opened token.kind) rest := by
  rw [significant, hcounts]
  rfl

theorem significant_newline {token : Token} (rest : List Token)
    (hbracketed : bracketed opened = true) (hline : token.isNewline = true) :
    significant opened (token :: rest) = significant opened rest := by
  rw [significant, hbracketed, hline]
  rfl

theorem significant_append (before after : List Token) :
    significant opened (before ++ after) =
      significant opened before ++ significant
        (before.foldl (fun opened token => openAfter opened token.kind) opened)
        after := by
  induction before generalizing opened with
  | nil => rfl
  | cons token rest ih =>
      by_cases hskips : (bracketed opened && token.isNewline) = true
      · obtain ⟨hbracketed, hline⟩ := Bool.and_eq_true_iff.mp hskips
        rw [List.cons_append, significant_newline _ hbracketed hline,
          significant_newline _ hbracketed hline, List.foldl_cons,
          openAfter_newline hline]
        exact ih
      · rw [Bool.not_eq_true] at hskips
        rw [List.cons_append, significant_cons_of_counts _ hskips,
          significant_cons_of_counts _ hskips, List.cons_append, ih]
        rfl

/-- A line feed that says nothing is not significant. -/
theorem Respaced.significant_eq {tokens others : List Token}
    (hrespaced : Respaced tokens others) :
    significant [] tokens = significant [] others := by
  cases hrespaced with
  | insert before after hline hbracketed =>
      rw [significant_append, significant_append]
      exact congrArg _ (significant_newline after hbracketed
        (isNewline_iff.mpr hline)).symm
  | delete before after hline hbracketed =>
      rw [significant_append, significant_append]
      exact congrArg _ (significant_newline after hbracketed
        (isNewline_iff.mpr hline))

theorem significant_eq_of_respaced {tokens others : List Token}
    (hrespaced : Relation.ReflTransGen Respaced tokens others) :
    significant [] tokens = significant [] others := by
  induction hrespaced with
  | refl => rfl
  | tail _ hlast ih => exact ih.trans hlast.significant_eq

theorem significant_dropWhile (hbracketed : bracketed opened = true)
    (tokens : List Token) :
    significant opened (tokens.dropWhile Token.isNewline) =
      significant opened tokens := by
  induction tokens with
  | nil => rfl
  | cons token rest ih =>
      by_cases hline : token.isNewline = true
      · rw [List.dropWhile_cons_of_pos hline, ih,
          significant_newline _ hbracketed hline]
      · rw [List.dropWhile_cons_of_neg hline]

/-- Skipping line feeds is the same before and after taking out those that say
nothing. -/
theorem dropWhile_significant (tokens : List Token) :
    (significant opened tokens).dropWhile Token.isNewline =
      significant opened (tokens.dropWhile Token.isNewline) := by
  induction tokens with
  | nil => rfl
  | cons token rest ih =>
      by_cases hline : token.isNewline = true
      · rw [List.dropWhile_cons_of_pos hline]
        by_cases hbracketed : bracketed opened = true
        · rw [significant_newline _ hbracketed hline, ih]
        · rw [significant_cons_of_counts _ (by simp [hbracketed]),
            List.dropWhile_cons_of_pos hline, openAfter_newline hline, ih]
      · rw [List.dropWhile_cons_of_neg hline,
          significant_cons_of_counts _ (by simp [hline]),
          List.dropWhile_cons_of_neg hline]

/-- Where no line feed stands in front, the first token is significant. -/
theorem significant_cons_of_settled {token : Token} (rest : List Token)
    (hsettled : bracketed opened = true → token.kind ≠ .newline) :
    significant opened (token :: rest) =
      token :: significant (openAfter opened token.kind) rest := by
  apply significant_cons_of_counts
  cases hbracketed : bracketed opened with
  | false => rfl
  | true =>
      have hline := mt isNewline_iff.mp (hsettled hbracketed)
      simpa using hline

/-- The first token that counts is the first significant one. -/
theorem firstKind_significant (tokens : List Token) :
    firstKind (if !bracketed opened then tokens
      else tokens.dropWhile Token.isNewline) =
      firstKind (significant opened tokens) := by
  cases hbracketed : bracketed opened with
  | false =>
      cases tokens with
      | nil => rfl
      | cons token rest =>
          rw [significant_cons_of_counts rest (by simp [hbracketed])]
          rfl
  | true =>
      rw [← significant_dropWhile hbracketed]
      have hsettled := firstKind_dropWhile_ne tokens
      cases hrest : tokens.dropWhile Token.isNewline with
      | nil => rfl
      | cons token rest =>
          rw [hrest] at hsettled
          rw [significant_cons_of_settled rest fun _ => hsettled]
          rfl

/-- Settled lists of the same significant tokens start with the same token, and
go on with the same significant tokens. -/
theorem significant_cases {left right : List Token}
    (hsame : significant opened left = significant opened right)
    (hleft : bracketed opened = true → firstKind left ≠ .newline)
    (hright : bracketed opened = true → firstKind right ≠ .newline) :
    (left = [] ∧ right = []) ∨ ∃ token leftRest rightRest,
      left = token :: leftRest ∧ right = token :: rightRest ∧
        significant (openAfter opened token.kind) leftRest =
          significant (openAfter opened token.kind) rightRest := by
  cases left with
  | nil =>
      cases right with
      | nil => exact .inl ⟨rfl, rfl⟩
      | cons token rest =>
          rw [significant_cons_of_settled rest hright] at hsame
          cases hsame
  | cons token rest =>
      rw [significant_cons_of_settled rest hleft] at hsame
      cases right with
      | nil => cases hsame
      | cons other others =>
          rw [significant_cons_of_settled others hright] at hsame
          obtain ⟨rfl, hrests⟩ := List.cons.inj hsame
          exact .inr ⟨token, rest, others, rfl, rfl, hrests⟩

end Significant

end ChainScript
