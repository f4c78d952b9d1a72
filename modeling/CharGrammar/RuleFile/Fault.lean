import CharGrammar.Grammar.Basic
import CharGrammar.Located

namespace CharGrammar

/-- Why a file, or a line of it, could not be read. -/
inductive FileFault where
  | missing
  | notFolder
  | isFolder
  | nameTooLong
  | zeroInName
  | notText
  | other (reason : String)
deriving DecidableEq, Repr

def FileFault.message : FileFault → String
  | missing => "No such file or directory (os error 2)"
  | notFolder => "Not a directory (os error 20)"
  | isFolder => "Is a directory (os error 21)"
  | nameTooLong => "File name too long (os error 36)"
  | zeroInName => "file name contained an unexpected NUL byte"
  | notText => "stream did not contain valid UTF-8"
  | other reason => reason

instance : ToString FileFault := ⟨FileFault.message⟩

inductive RuleFault where
  | missingEquals
  | unexpectedEquals
  | missingHead
  | unclosedQuote
  | emptyAlternative
  | undefined (nonterminal : Char)
  | noRules
  | invalid (error : GrammarError)
  | strayBar
  | blankRule
  | unreadable (fault : FileFault)
deriving DecidableEq, Repr

def RuleFault.message : RuleFault → String
  | missingEquals => "Expected `=` after nonterminal"
  | unexpectedEquals => "Unexpected `=` encountered"
  | missingHead => "Tried to define something other than a single nonterminal"
  | unclosedQuote => "Unmatched quotes"
  | emptyAlternative => "Alternative has no symbols"
  | undefined x => s!"Could not find definition for `{x}`"
  | noRules => "No rules found"
  | invalid e => s!"Invalid grammar: {e}"
  | strayBar => "Rewrite was not fully split (this is a problem with regula, not the grammar)"
  | blankRule =>
    "Blank line encountered in rule parser (this is a problem with regula, not the grammar)"
  | unreadable fault => s!"File error: {fault}"

instance : ToString RuleFault := ⟨RuleFault.message⟩

/-- All that is wrong with a rule file, in order. -/
abbrev RuleFaults := List (Located RuleFault)

end CharGrammar
