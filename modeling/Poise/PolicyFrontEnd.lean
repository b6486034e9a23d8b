import Poise.ParserCertificate
import Poise.LexicalLayout

/-!
# Poise compiler: from policy text to the program

The lexer and the generated parser together.  Whatever way a policy is written,
the program built from the text is the one the actions of the policy build; the
parser gives up only where a policy is nested too deeply for its stack.
-/

namespace Poise

open Foundations

section PolicyFrontEnd

/-- How the parse of a policy text ends. -/
def parseText (text : List Char) : Option (LrOutcome Token YyState Failure) :=
  yyparse (yylex text)

/-- However a policy is written, the parse of the text ends as the policy says: with the
program of the policy, with the failure of one of its actions, or for want of room. -/
theorem parseText_layout
    {policy : List Statement} {items : List (List Layout × Token)} {last : List Layout}
    (hne : policy ≠ [])
    (hspelled : policySpelled policy (items.map Prod.snd))
    (hlex : ∀ i ∈ items, i.2.Lexical)
    (hlaid : LaidOut items last)
    (hapart : Apart items last) :
    (∃ s, parseText (layoutText items last) = some (.accepted s) ∧
      parsePolicy policy = .ok s.prog ∧ policyDepth policy ≤ 9998) ∨
    (∃ e, parseText (layoutText items last) = some (.failed e) ∧
      parsePolicy policy = .error e) ∨
    (parseText (layoutText items last) = some .exhausted ∧ 9998 < policyDepth policy) := by
  rw [parseText, yylex_layoutText hlex hlaid hapart]
  rcases yyparse_spelled hne hspelled with
    ⟨s, hparse, hdepth, hs⟩ | ⟨e, hparse, he⟩ | ⟨hdepth, he⟩
  · exact .inl ⟨s, hs, hparse, hdepth⟩
  · exact .inr (.inl ⟨e, he, hparse⟩)
  · exact .inr (.inr ⟨he, hdepth⟩)

/-- The tokens of a list declaration with a comment, a blank and ignored characters. -/
def declarationLayout : List (List Layout × Token) :=
  [([.comment ['a'], .blank '\n'], .kwDef), ([.blank ' '], .listvar "list1"), ([], .assign),
   ([.lone '='], .lb), ([], .const 5), ([.junk '?'], .rb)]

/-- A text with ignored characters and a comment at its end is parsed into its list. -/
theorem parseText_declarationLayout :
    ∃ s, parseText (layoutText declarationLayout [.comment ['b']]) = some (.accepted s) ∧
      parsePolicy [.defList "list1" 5 []] = .ok s.prog := by
  have h := @parseText_layout [.defList "list1" 5 []] declarationLayout [.comment ['b']]
    (by simp) ⟨_, [], rfl, rfl, rfl⟩ ?_ ?_ ?_
  · rcases h with ⟨s, hs, hparse, _⟩ | ⟨e, _, hparse⟩ | ⟨_, hdepth⟩
    · exact ⟨s, hs, hparse⟩
    · cases hparse
    · simp [policyDepth, Statement.depth] at hdepth
  · simp only [declarationLayout, List.forall_mem_cons, Token.Lexical, true_and]
    exact ⟨⟨'1', rfl, rfl⟩, by norm_num, by simp⟩
  · simp [declarationLayout, LaidOut, GapBefore, Layout.Before, isJunk, symbolChars, loneChars,
      partnerOf, layoutText, gapText, Layout.text, Token.text]
  · simp [declarationLayout, Apart, Token.joins, Token.joinsGap, Token.isWord, symbolTokens]

end PolicyFrontEnd

end Poise
