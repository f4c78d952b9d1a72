import CharGrammar.Ordered.Set
import CharGrammar.Ordered.Table
import CharGrammar.Text
import CharGrammar.Located
import CharGrammar.Journal
import CharGrammar.Grammar.LanguageClass
import CharGrammar.Grammar.Render
import CharGrammar.RuleFile.Load
import CharGrammar.FileTree
import CharGrammar.Automaton.OfGrammar
import CharGrammar.Automaton.Run
import CharGrammar.Words.Generator
import CharGrammar.Derivation.Generate
import CharGrammar.Tree
import CharGrammar.Workbench.Operations
import CharGrammar.Main
import CharGrammar.Proofs.Tables
import CharGrammar.Proofs.Edges
import CharGrammar.Proofs.Walks
import CharGrammar.Proofs.Derives
import CharGrammar.Proofs.Choices
import CharGrammar.Proofs.Expansions
import CharGrammar.Proofs.RegularWords
import CharGrammar.Proofs.Lines
import CharGrammar.Proofs.Readings
import CharGrammar.Proofs.JoinedRules
import CharGrammar.Proofs.RuleLines
import CharGrammar.Proofs.Reload
import CharGrammar.Proofs.Limits
import CharGrammar.Proofs.StatedRules
import CharGrammar.Proofs.Answers
import CharGrammar.Proofs.Regrouping
import CharGrammar.Proofs.Relocation
import CharGrammar.Proofs.Layout
import CharGrammar.Proofs.DeadEnds
import CharGrammar.Proofs.Calls
import CharGrammar.Proofs.LinearForms
import CharGrammar.Proofs.Conflicts
import CharGrammar.Proofs.Scans
import CharGrammar.Proofs.HollowLines
import CharGrammar.Proofs.Decoding
import CharGrammar.Proofs.FileLines
import CharGrammar.Proofs.QuotedPieces
import CharGrammar.Proofs.BadLines
import CharGrammar.Proofs.UndefinedUses
import CharGrammar.Proofs.Stopping
import CharGrammar.Proofs.RunEnds
import CharGrammar.Proofs.AutomatonFaults
import CharGrammar.Proofs.GrammarFaults
import CharGrammar.Proofs.SpelledRules
import CharGrammar.Proofs.Places
import CharGrammar.Proofs.PrintedTrees
import CharGrammar.Proofs.Skips
